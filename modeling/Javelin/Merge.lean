import Javelin.Diff3
import Javelin.Domain

/-! # Three-way merge

`mergeResolved`: every path of the three manifests is decided on its own (`mergePath`), different
destinations of one renamed path become conflicts, and then choices are applied to conflicts and
to paths that collide with another one, round by round, until no choice applies
(`settle`).  What is left is merged, in conflict or deleted (`outcomeOf`).

The loader and the alias probe are the caller's: they run in a state `σ` of their own and may
fail with an `E`. -/

namespace Javelin

open KeyedList

/-! ### Choices and renames -/

/-- How an owner resolves one conflicting path. -/
inductive Choice where
  | ours
  | theirs
  | content (bytes : Str) (executable : Option Bool)
deriving DecidableEq

namespace Manifest
variable {Id : Type} [DecidableEq Id]

/-- The entries that `later` does not have at their path any more. -/
def removedIn (self later : Manifest Id) : List (RepoPath × FileEntry Id) :=
  self.entries.toList.filter (fun e => later.entries.get? e.1 = none)

end Manifest

/-- The paths of an entry in a list. -/
def pathsOf {Id : Type} [DecidableEq Id] (l : List (RepoPath × FileEntry Id)) (entry : FileEntry Id) :
    List RepoPath := (l.filter (fun e => e.2 = entry)).map Prod.fst

/-- `Manifest::renames_to`: a path `later` removes whose entry it adds at exactly one other path,
and which is the only path it removes with that entry. -/
def Manifest.renamesTo {Id : Type} [DecidableEq Id] (self later : Manifest Id) : SortedMap RepoPath RepoPath :=
  let removed := self.removedIn later
  let added := later.removedIn self
  SortedMap.ofList (removed.filterMap (fun e =>
    match pathsOf removed e.2, pathsOf added e.2 with
    | [source], [destination] => some (source, destination)
    | _, _ => none))

namespace Merge

/-! ### Resources -/

inductive Resource where
  | entries
  | pathBytes
  | totalPathBytes
  | blobBytes
  | loadedBytes
  | lines
  | tableCells
  | work
deriving DecidableEq

def Resource.limit : Resource → ℕ
  | entries => 4096
  | pathBytes => 1024
  | totalPathBytes => 128 * 1024
  | blobBytes => 1024 * 1024
  | loadedBytes => 8 * 1024 * 1024
  | lines => 8192
  | tableCells => 4 * 1024 * 1024
  | work => 512 * 1024 * 1024

structure ResourceLimit where
  resource : Resource
  required : ℕ
  limit : ℕ
deriving DecidableEq

inductive MergeError (E : Type) where
  | load (error : E)
  | resource (limit : ResourceLimit)
deriving DecidableEq

def Resource.check {E : Type} (resource : Resource) (required : ℕ) : Except (MergeError E) Unit :=
  if resource.limit < required then .error (.resource ⟨resource, required, resource.limit⟩) else .ok ()

/-- Reserved work and loaded bytes. -/
structure Usage where
  workUnits : ℕ
  loadedBytes : ℕ
deriving DecidableEq

namespace Usage
variable {E : Type}

def reserve (usage : Usage) (units : ℕ) : Except (MergeError E) Usage := do
  Resource.work.check (usage.workUnits + units)
  return { usage with workUnits := usage.workUnits + units }

def loaded (usage : Usage) (bytes : ℕ) : Except (MergeError E) Usage := do
  Resource.blobBytes.check bytes
  Resource.loadedBytes.check (usage.loadedBytes + bytes)
  let usage' ← usage.reserve (4 * bytes + 32)
  return { usage' with loadedBytes := usage.loadedBytes + bytes }

end Usage

/-! ### Outcomes -/

/-- A resolved path.  New bytes have no object ID until the caller stores them. -/
inductive Merged (Id : Type) where
  | retained (entry : FileEntry Id)
  | content (bytes : Str) (executable : Bool)
deriving DecidableEq

inductive ConflictKind where
  | content
  | binary
  | modifyDelete
  | addAdd
  | entryType
  | pathPrefix
  | renameRename
  | pathAlias
deriving DecidableEq

/-- An unresolved path with the exact entries the owner chooses between. -/
structure Conflict (Id : Type) where
  path : RepoPath
  kind : ConflictKind
  base : Option (FileEntry Id)
  ours : Option (FileEntry Id)
  theirs : Option (FileEntry Id)
  related : Option RepoPath
deriving DecidableEq

structure MergeOutcome (Id : Type) where
  merged : SortedMap RepoPath (Merged Id)
  conflicts : List (Conflict Id)
  unused : List RepoPath
  usage : Usage
deriving DecidableEq

/-- What a path is decided to be. -/
inductive Path (Id : Type) where
  | resolved (merged : Merged Id)
  | deleted
  | unresolved (kind : ConflictKind)
deriving DecidableEq

/-- The entries of a path in base, ours and theirs. -/
structure Sides (Id : Type) where
  base : Option (FileEntry Id)
  ours : Option (FileEntry Id)
  theirs : Option (FileEntry Id)
deriving DecidableEq

/-- A path, what it is decided to be, and its entries. -/
structure Row (Id : Type) where
  path : RepoPath
  result : Path Id
  sides : Sides Id
deriving DecidableEq

/-- The related path of every path that collides with another one, and the paths that alias
another one. -/
structure Analysis where
  collisions : SortedMap RepoPath RepoPath
  hits : List RepoPath

/-! ### One path -/

/-- The exact entry of a side, or its absence. -/
def take {Id : Type} : Option (FileEntry Id) → Path Id
  | some entry => .resolved (.retained entry)
  | none => .deleted

/-- The mode of a regular file. -/
def mode {Id : Type} : Option (FileEntry Id) → Option Bool
  | some (.regular _ executable) => some executable
  | _ => none

/-- Applies a choice to one path's sides. -/
def choose {Id : Type} (choice : Choice) (sides : Sides Id) : Path Id :=
  match choice with
  | .ours => take sides.ours
  | .theirs => take sides.theirs
  | .content bytes executable =>
      .resolved (.content bytes
        (((executable.orElse fun _ => mode sides.ours).orElse fun _ => mode sides.theirs).getD false))

/-- The number of lines of a text. -/
def countLines (bytes : Str) : ℕ :=
  bytes.count 10 + if bytes ≠ [] ∧ bytes.getLast? ≠ some 10 then 1 else 0

/-- The work of matching one side of `m` lines and `o` bytes with a base of `n` lines and `b`
bytes. -/
def sideWork {E : Type} (n b m o : ℕ) : Except (MergeError E) ℕ := do
  let cells := (n + 1) * (m + 1)
  Resource.tableCells.check cells
  return 5 * cells + 3 * min (n * o) (m * b) + 4 * (n + m + 1)

/-- The work of merging the lines of three texts. -/
def linesWork {E : Type} (base ours theirs : Str) : Except (MergeError E) ℕ := do
  let n := countLines base
  Resource.lines.check n
  let m := countLines ours
  Resource.lines.check m
  let k := countLines theirs
  Resource.lines.check k
  let b := base.length
  let o := ours.length
  let t := theirs.length
  let first ← sideWork n b m o
  let second ← sideWork n b k t
  return first + second + n * (n + m + k + b + o + t) + 16 * (n + m + k + b + o + t + 1)

section merging
variable {Id σ E : Type} [DecidableEq Id]

/-- Steps with the caller's state and the usage so far. -/
abbrev MergeM (σ E : Type) := StateT (σ × Usage) (Except (MergeError E))

/-- A loader or probe of the caller. -/
abbrev Caller (σ E α : Type) := σ → Except E (α × σ)

/-- Runs a function of the caller. -/
def call {α : Type} (f : Caller σ E α) : MergeM σ E α := fun s =>
  match f s.1 with
  | .ok (a, state) => .ok (a, (state, s.2))
  | .error e => .error (.load e)

/-- Counts usage. -/
def spend (f : Usage → Except (MergeError E) Usage) : MergeM σ E Unit := fun s => do
  let usage ← f s.2
  return ((), (s.1, usage))

def boundedLoad (load : Id → Caller σ E Str) (id : Id) : MergeM σ E Str := do
  let bytes ← call (load id)
  spend (fun usage => usage.loaded bytes.length)
  return bytes

def mergeLines (base ours theirs : Str) : MergeM σ E (Option Str) := do
  spend (fun usage => do usage.reserve (← linesWork base ours theirs))
  return (diff3 (lines base) (lines ours) (lines theirs)).map List.flatten

/-- Merges the contents of a regular file that both sides changed. -/
def mergeContent (load : Id → Caller σ E Str) (base ours theirs : Id) (executable : Bool) :
    MergeM σ E (Path Id) := do
  let b ← boundedLoad load base
  let o ← boundedLoad load ours
  let t ← boundedLoad load theirs
  if 0 ∈ b ∨ 0 ∈ o ∨ 0 ∈ t then return .unresolved .binary
  else
    match ← mergeLines b o t with
    | some bytes => return .resolved (.content bytes executable)
    | none => return .unresolved .content

/-- Resolves one path from exact entry equality, then line content when both edit text. -/
def mergePath (load : Id → Caller σ E Str) (sides : Sides Id) : MergeM σ E (Path Id) :=
  if sides.ours = sides.theirs ∨ sides.theirs = sides.base then return take sides.ours
  else if sides.ours = sides.base then return take sides.theirs
  else
    match sides.base, sides.ours, sides.theirs with
    | some (.regular b bx), some (.regular o ox), some (.regular t tx) =>
        let executable := if ox = bx then tx else ox
        if o = t ∨ t = b then return .resolved (.retained (.regular o executable))
        else if o = b then return .resolved (.retained (.regular t executable))
        else mergeContent load b o t executable
    | some _, some _, some _ => return .unresolved .entryType
    | none, _, _ => return .unresolved .addAdd
    | _, _, _ => return .unresolved .modifyDelete

end merging

section rows
variable {Id : Type} [DecidableEq Id]

/-- The other destination of every destination that both sides renamed one path to, differently. -/
def renamePartners (ours theirs : SortedMap RepoPath RepoPath) : SortedMap RepoPath RepoPath :=
  ours.toList.foldl (fun partners e =>
    match theirs.get? e.1 with
    | some other =>
        if other ≠ e.2 then (partners.insert e.2 other).insert other e.2 else partners
    | none => partners) SortedMap.empty

/-! ### All paths -/

variable {σ E : Type}

/-- The paths of three manifests, sorted. -/
def allPaths (base ours theirs : Manifest Id) : List RepoPath :=
  (SortedMap.ofList ((base.entries.keys ++ ours.entries.keys ++ theirs.entries.keys).map
    (fun p => (p, ())))).keys

/-- Checks one path, and adds its bytes and the work it costs. -/
def admitPath (total : ℕ × ℕ) (path : RepoPath) : Except (MergeError E) (ℕ × ℕ) := do
  let len := path.asStr.length
  Resource.pathBytes.check len
  Resource.totalPathBytes.check (total.1 + len)
  return (total.1 + len, total.2 + 64 * (len + 1) * (len + 1))

/-- The limits that are checked before any path is merged. -/
def admission (base ours theirs : Manifest Id) : Except (MergeError E) Usage := do
  let paths := base.entries.keys ++ ours.entries.keys ++ theirs.entries.keys
  Resource.entries.check paths.length
  let total ← paths.foldlM admitPath (0, 0)
  Usage.reserve ⟨0, 0⟩ total.2

def sidesOf (base ours theirs : Manifest Id) (path : RepoPath) : Sides Id :=
  ⟨base.entries.get? path, ours.entries.get? path, theirs.entries.get? path⟩

/-- Decides one path on its own. -/
def mergeRow (load : Id → Caller σ E Str) (base ours theirs : Manifest Id) (path : RepoPath) :
    MergeM σ E (Row Id) := do
  let sides := sidesOf base ours theirs path
  let result ← mergePath load sides
  return ⟨path, result, sides⟩

/-- The partners of the destinations that the sides renamed differently. -/
def partnersOf (base ours theirs : Manifest Id) : SortedMap RepoPath RepoPath :=
  renamePartners (base.renamesTo ours) (base.renamesTo theirs)

/-- A destination with a partner is unresolved. -/
def Row.withPartner (partners : SortedMap RepoPath RepoPath) (row : Row Id) : Row Id :=
  match partners.get? row.path with
  | some _ => { row with result := .unresolved .renameRename }
  | none => row

/-- Every path decided on its own, and the renames. -/
def threeWay (load : Id → Caller σ E Str) (base ours theirs : Manifest Id) : MergeM σ E (List (Row Id)) := do
  let rows ← (allPaths base ours theirs).mapM (mergeRow load base ours theirs)
  return rows.map (Row.withPartner (partnersOf base ours theirs))

/-! ### Choices -/

/-- Whether a path could end up in the owner's result. -/
def Row.present (row : Row Id) : Bool :=
  match row.result with
  | .resolved _ => true
  | .deleted => false
  | .unresolved _ => row.sides.ours.isSome || row.sides.theirs.isSome

def present (rows : List (Row Id)) : List RepoPath := (rows.filter Row.present).map Row.path

/-- Keeps the value that is set already. -/
def orInsert {V : Type} (m : SortedMap RepoPath V) (path : RepoPath) (v : V) : SortedMap RepoPath V :=
  match m.get? path with
  | some _ => m
  | none => m.insert path v

/-- A path and its present ancestors collide with each other. -/
def collide (paths : List RepoPath) (collisions : SortedMap RepoPath RepoPath) (path : RepoPath) :
    SortedMap RepoPath RepoPath :=
  path.ancestors.foldl (fun collisions parent =>
    if parent ∈ paths then orInsert (orInsert collisions path parent) parent path else collisions)
    collisions

/-- The first related path of every path that is below or above another one. -/
def collisionsOf (paths : List RepoPath) : SortedMap RepoPath RepoPath :=
  paths.foldl (collide paths) SortedMap.empty

/-- The paths that are probed for aliases. -/
def candidates (paths : List RepoPath) : List RepoPath :=
  paths.filter (fun path => (collisionsOf paths).get? path = none)

/-- Structural collisions among the paths that would remain, and the aliases among the others. -/
def analyse (aliases : List RepoPath → Caller σ E (List RepoPath)) (rows : List (Row Id)) :
    MergeM σ E Analysis := do
  let paths := present rows
  if 1 < (candidates paths).length then do
    let hits ← call (aliases (candidates paths))
    return ⟨collisionsOf paths, hits⟩
  else return ⟨collisionsOf paths, []⟩

/-- A conflict, or a path that collides with another one. -/
def Row.conflicting (row : Row Id) (analysis : Analysis) : Bool :=
  (match row.result with
    | .unresolved _ => true
    | _ => false) ||
    (analysis.collisions.get? row.path).isSome || decide (row.path ∈ analysis.hits)

/-- The choice that applies to a row now. -/
def Row.chosen (choices : SortedMap RepoPath Choice) (applied : List RepoPath) (analysis : Analysis)
    (row : Row Id) : Option Choice :=
  if row.conflicting analysis ∧ row.path ∉ applied then choices.get? row.path else none

/-- Applies the choice to a row, if there is one. -/
def Row.apply (choices : SortedMap RepoPath Choice) (applied : List RepoPath) (analysis : Analysis)
    (row : Row Id) : Row Id :=
  match row.chosen choices applied analysis with
  | some choice => { row with result := choose choice row.sides }
  | none => row

/-- The paths to which a choice applies now. -/
def taken (choices : SortedMap RepoPath Choice) (applied : List RepoPath) (analysis : Analysis)
    (rows : List (Row Id)) : List RepoPath :=
  (rows.filter (fun row => (row.chosen choices applied analysis).isSome)).map Row.path

/-- Applies choices until none applies; every round but the last one uses up a choice. -/
def settle (choices : SortedMap RepoPath Choice) (aliases : List RepoPath → Caller σ E (List RepoPath)) :
    ℕ → List (Row Id) → List RepoPath → MergeM σ E (List (Row Id) × List RepoPath × Analysis)
  | 0, rows, applied => do
      let analysis ← analyse aliases rows
      return (rows, applied, analysis)
  | bound + 1, rows, applied => do
      let analysis ← analyse aliases rows
      let now := taken choices applied analysis rows
      if now = [] then return (rows, applied, analysis)
      else settle choices aliases bound (rows.map (Row.apply choices applied analysis)) (applied ++ now)

/-! ### The outcome -/

/-- The conflict of a row. -/
def Row.conflict (row : Row Id) (kind : ConflictKind) (related : Option RepoPath) : Conflict Id :=
  ⟨row.path, kind, row.sides.base, row.sides.ours, row.sides.theirs, related⟩

/-- What is left of a row: nothing, a conflict or a merged entry. -/
def Row.outcome (partners : SortedMap RepoPath RepoPath) (analysis : Analysis) (row : Row Id) :
    Option (Conflict Id ⊕ Merged Id) :=
  match row.result with
  | .deleted => none
  | .unresolved .renameRename => some (.inl (row.conflict .renameRename (partners.get? row.path)))
  | .unresolved kind => some (.inl (row.conflict kind (analysis.collisions.get? row.path)))
  | .resolved merged =>
      match analysis.collisions.get? row.path with
      | some other => some (.inl (row.conflict .pathPrefix (some other)))
      | none =>
          if row.path ∈ analysis.hits then some (.inl (row.conflict .pathAlias none))
          else some (.inr merged)

def Row.merged? (partners : SortedMap RepoPath RepoPath) (analysis : Analysis) (row : Row Id) :
    Option (RepoPath × Merged Id) :=
  ((row.outcome partners analysis).bind Sum.getRight?).map (fun merged => (row.path, merged))

def Row.conflict? (partners : SortedMap RepoPath RepoPath) (analysis : Analysis) (row : Row Id) :
    Option (Conflict Id) := (row.outcome partners analysis).bind Sum.getLeft?

/-- The outcome of settled rows. -/
def outcomeOf (choices : SortedMap RepoPath Choice) (partners : SortedMap RepoPath RepoPath)
    (usage : Usage) (rows : List (Row Id)) (applied : List RepoPath) (analysis : Analysis) :
    MergeOutcome Id where
  merged := SortedMap.ofList (rows.filterMap (Row.merged? partners analysis))
  conflicts := rows.filterMap (Row.conflict? partners analysis)
  unused := choices.keys.filter (fun path => path ∉ applied)
  usage := usage

/-- Merges `ours` and `theirs` relative to `base`, applying choices to conflicting paths. -/
def mergeResolved (base ours theirs : Manifest Id) (choices : SortedMap RepoPath Choice)
    (aliases : List RepoPath → Caller σ E (List RepoPath)) (load : Id → Caller σ E Str) (s : σ) :
    Except (MergeError E) (MergeOutcome Id × σ) := do
  let usage ← admission base ours theirs
  let (rows, s) ← threeWay load base ours theirs (s, usage)
  let ((rows, applied, analysis), s') ← settle choices aliases choices.toList.length rows [] s
  return (outcomeOf choices (partnersOf base ours theirs) s.2 rows applied analysis, s'.1)

/-- Merges with no choices and no alias probe. -/
def merge (base ours theirs : Manifest Id) (load : Id → Caller σ E Str) (s : σ) :
    Except (MergeError E) (MergeOutcome Id × σ) :=
  mergeResolved base ours theirs SortedMap.empty (fun _ s => .ok ([], s)) load s

end rows

end Merge

end Javelin
