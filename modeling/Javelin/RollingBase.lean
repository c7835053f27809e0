import Javelin.Interleaving
import Javelin.Workspaces

/-! # The rolling base

The store directory keeps one materialized World, the rolling base, beside the record `base.json` of the
version it holds.  New Layers are cloned from it.  `ensureRolling` brings it to a version: it advances the
directory in place between two writes of the record, or drops it and builds it anew in a staging directory.
`recover` drops a base whose record names an advance in progress.

A command is a `Process` whose steps are the calls of the file system and the reads of the repository.  Any
call may fail, and a process may be stopped between any two of them; then the steps it completed stay.
What a call does outside the base and its record is `aside`. -/

namespace Javelin

open KeyedList

/-! ### Calls on a directory -/

inductive CallError where
  | alreadyExists
  | other
deriving DecidableEq

/-- `create_dir`, and opening with `create_new`: refused where anything stands, and where the parent is
missing. -/
def Disk.create {Id : Type} (d : Disk Id) (p : RepoPath) (found : Found Id) : Except CallError (Disk Id) :=
  if h : d.at? p = none then
    if h' : p.Valid ∧ ∀ a ∈ p.ancestors, d.at? a = some .dir then .ok
      { found := d.found.insert p found
        valid := by
          intro q hq
          rw [SortedMap.mem_keys, SortedMap.get?_insert] at hq
          split at hq
          · rename_i he
            rw [← he]
            exact h'.1
          · exact d.valid q (SortedMap.mem_keys.mpr hq)
        within := by
          intro q hq a ha
          rw [SortedMap.mem_keys, SortedMap.get?_insert] at hq
          have hdir : d.found.get? a = some .dir := by
            split at hq
            · rename_i he
              rw [← he] at ha
              exact h'.2 a ha
            · exact d.within q (SortedMap.mem_keys.mpr hq) a ha
          rw [SortedMap.get?_insert, if_neg, hdir]
          intro he
          rw [← he] at hdir
          exact absurd (h.symm.trans hdir) (by simp) }
    else .error .other
  else .error .alreadyExists

theorem Disk.at?_create {Id : Type} {d d' : Disk Id} {p : RepoPath} {found : Found Id}
    (h : d.create p found = .ok d') :
    d.at? p = none ∧ ∀ q, d'.at? q = if p = q then some found else d.at? q := by
  unfold Disk.create at h
  split at h
  · rename_i hnone
    split at h
    · cases h
      exact ⟨hnone, fun q => SortedMap.get?_insert _ _ _ _⟩
    · cases h
  · cases h

def Disk.nothing {Id : Type} : Disk Id :=
  ⟨.empty, fun _ h => absurd h (by simp [SortedMap.keys, SortedMap.empty]),
    fun _ h => absurd h (by simp [SortedMap.keys, SortedMap.empty])⟩

/-! ### The store directory -/

/-- A directory with the mode of its root. -/
structure Folder where
  disk : Disk Str
  mode : ℕ

/-- What `base.json` records: the version of the base, and the one it is being advanced to. -/
structure RollingState where
  version : VersionNumber
  advancing : Option VersionNumber
deriving DecidableEq

/-- The store directory as far as the base is concerned. -/
structure StoreDir where
  /-- `none` if the file is missing or unreadable. -/
  record : Option RollingState
  rolling : Option Folder
  /-- The staging directory of the command under way. -/
  staging : Option Folder
  layers : LayerId → Option Folder
  /-- What was cloned for new Layers, each with the version it was taken for. -/
  clones : List (VersionNumber × Disk Str)

inductive Root where
  | rolling
  | staging
deriving DecidableEq

def StoreDir.folder (store : StoreDir) : Root → Option Folder
  | .rolling => store.rolling
  | .staging => store.staging

def StoreDir.setFolder (store : StoreDir) (folder : Option Folder) : Root → StoreDir
  | .rolling => { store with rolling := folder }
  | .staging => { store with staging := folder }

/-- A repository with its store directory, and whether the next call fails. -/
structure Site (Id : Type) where
  system : System Id
  store : StoreDir
  fault : Bool

inductive BaseError (Id : Type) where
  | repository (error : Error Id)
  /-- A path collides with another one on this volume. -/
  | collision (path : RepoPath)
  | io

namespace RollingBase

variable {Id : Type} [LinearOrder Id] [Encoding Id]

/-- A command under the lock of the store directory. -/
abbrev BaseM (Id α : Type) := Process Unit (Site Id) (BaseError Id) α

/-! ### Steps -/

section steps

omit [LinearOrder Id] [Encoding Id]

/-- A call of the file system. -/
def call (f : StoreDir → Except (BaseError Id) StoreDir) : BaseM Id Unit :=
  .transact () (fun s =>
    if s.fault then throw .io
    else do
      let store ← f s.store
      return ((), { s with store := store }))

def look {α : Type} (f : StoreDir → α) : BaseM Id α :=
  .read () (fun s => if s.fault then throw .io else return f s.store)

/-- A read of the repository. -/
def query {α : Type} (f : Repository Id → Except (Error Id) α) : BaseM Id α :=
  .read () (fun s => if s.fault then throw .io else (f s.system.repository).mapError .repository)

/-- A call that does nothing to the base and its record. -/
def aside : BaseM Id Unit := call .ok

def onDisk (root : Root) (f : Disk Str → Except (BaseError Id) (Disk Str)) : BaseM Id Unit :=
  call (fun store =>
    match store.folder root with
    | none => throw .io
    | some folder => do
        let disk ← f folder.disk
        return store.setFolder (some { folder with disk := disk }) root)

def setMode (root : Root) (mode : ℕ) : BaseM Id Unit :=
  call (fun store =>
    match store.folder root with
    | none => throw .io
    | some folder => return store.setFolder (some { folder with mode := mode }) root)

/-- A call that a path may refuse. -/
def refusable (x : Option (Disk Str)) : Except (BaseError Id) (Disk Str) :=
  match x with
  | some disk => .ok disk
  | none => .error .io

/-- Creates a name fresh; a name that stands collides. -/
def fresh (path : RepoPath) (x : Except CallError (Disk Str)) : Except (BaseError Id) (Disk Str) :=
  match x with
  | .ok disk => .ok disk
  | .error .alreadyExists => .error (.collision path)
  | .error .other => .error .io

/-- Runs a command with the root readable by its owner, resealing it afterwards. -/
def unsealed {α : Type} (root : Root) (f : BaseM Id α) : BaseM Id α := do
  setMode root 0o700
  let result ← f.caught
  setMode root 0o000
  match result with
  | .ok a => return a
  | .error e => .fail e

/-! ### The record -/

def rollingState : BaseM Id (Option RollingState) := look StoreDir.record

/-- Replaces the record atomically and makes it durable before returning. -/
def writeRollingState (state : RollingState) : BaseM Id Unit := do
  aside
  call (fun store => .ok { store with record := some state })
  aside

/-- Renames a directory into trash. -/
def trash (root : Root) : BaseM Id Unit := do
  setMode root 0o700
  call (fun store => .ok (store.setFolder none root))
  aside

/-- Trashes the rolling base and then its record. -/
def dropRolling : BaseM Id Unit := do
  if ← look (fun store => store.rolling.isSome) then trash .rolling
  call (fun store => .ok { store with record := none })

/-- Best effort after a failed build. -/
def abandon : BaseM Id Unit := do
  match ← (look (fun store => store.staging.isSome) : BaseM Id Bool).caught with
  | .ok true =>
      let _ ← (trash .staging : BaseM Id Unit).caught
      return ()
  | _ => return ()

end steps

/-! ### Applying changes -/

/-- What a directory held before changes are applied to it. -/
inductive Before where
  | nothing
  | at (version : VersionNumber)

def Before.file (before : Before) (path : RepoPath) : BaseM Id Bool :=
  match before with
  | .nothing => return false
  | .at version => query (fun r => do
      let (entry, _) ← r.index.entryAt path version (r.objects.trees .verify)
      return entry.isSome)

def Before.dir (before : Before) (path : RepoPath) : BaseM Id Bool :=
  match before with
  | .nothing => return false
  | .at version => query (fun r => do
      let (dir, _) ← r.index.isDir path version (r.objects.trees .verify)
      return dir)

section apply

variable (root : Root) (before : Before)

omit [LinearOrder Id] [Encoding Id] in
/-- Removes the directories, nearest first, up to the first that stays; returns those that are gone. -/
def removeParents : List RepoPath → List RepoPath → BaseM Id (List RepoPath)
  | [], removed => return removed
  | dir :: dirs, removed => do
      match ← (onDisk root (fun disk => refusable (disk.rmdir dir)) : BaseM Id Unit).caught with
      | .ok () => removeParents dirs (dir :: removed)
      | .error _ => return removed

def removeAll : List (Write Id) → List RepoPath → BaseM Id (List RepoPath)
  | [], removed => return removed
  | (path, _) :: changes, removed => do
      if ← before.file path then
        onDisk root (fun disk => refusable (disk.unlink path))
        let removed ← removeParents root path.ancestors.reverse removed
        removeAll changes removed
      else removeAll changes removed

/-- Creates the directories above a path that are not there. -/
def makeParents (removed : List RepoPath) : List RepoPath → List RepoPath → BaseM Id (List RepoPath)
  | [], made => return made
  | dir :: dirs, made => do
      let stands ← (if dir ∈ made then pure true else if dir ∈ removed then pure false else before.dir dir)
      if stands then makeParents removed dirs made
      else do
        onDisk root (fun disk => fresh dir (disk.create dir .dir))
        makeParents removed dirs (dir :: made)

/-- Returns the bytes written. -/
def writeEntry (path : RepoPath) : FileEntry Id → BaseM Id ℕ
  | .regular content executable => do
      let bytes ← query (fun r => r.objects.readBlob content)
      onDisk root (fun disk => fresh path (disk.create path (.file (.regular [] executable))))
      onDisk root (fun disk => refusable (disk.rename path (.regular bytes executable)))
      aside
      return bytes.length
  | .symlink target => do
      let bytes ← query (fun r => r.objects.readBlob target)
      onDisk root (fun disk => fresh path (disk.create path (.file (.symlink bytes))))
      return 0

def writeAll (removed : List RepoPath) : List (Write Id) → List RepoPath → ℕ → BaseM Id ℕ
  | [], _, written => return written
  | (_, none) :: changes, made, written => writeAll removed changes made written
  | (path, some entry) :: changes, made, written => do
      let made ← makeParents root before removed path.ancestors made
      let bytes ← writeEntry root path entry
      writeAll removed changes made (written + bytes)

/-- Applies exact path changes.  Removals go first; every new name must be created fresh.  Returns how many
paths changed, and the bytes written. -/
def apply (changes : List (Write Id)) : BaseM Id (ℕ × ℕ) := do
  let removed ← removeAll root before changes []
  let written ← writeAll root before removed changes [] 0
  return (changes.length, written)

end apply

/-! ### Moving the base -/

/-- The tree diff of two versions. -/
def differences (source target : VersionNumber) : BaseM Id (SparseChanges Id) :=
  query (fun r => do
    let old ← r.treeIn source
    let new ← r.treeIn target
    let (changes, _) ← Trees.diff old new (r.objects.trees .verify)
    return changes)

/-- Moves the rolling base forward in place.  The record names the target before the first write. -/
def advanceRolling (source target : VersionNumber) : BaseM Id (ℕ × ℕ) := do
  writeRollingState ⟨source, some target⟩
  let applied ← (unsealed .rolling (do
    let changes ← differences source target
    let counts ← apply .rolling (.at source) changes.entries.toList
    aside
    return counts)).caught
  match applied with
  | .ok counts => do
      writeRollingState ⟨target, none⟩
      return counts
  | .error e => do
      let _ ← (dropRolling : BaseM Id Unit).caught
      .fail e

omit [LinearOrder Id] [Encoding Id] in
/-- Puts a built directory in place and records it.  A sealed directory cannot be renamed to a new parent. -/
def publishRolling (version : VersionNumber) : BaseM Id Unit := do
  call (fun store =>
    match store.rolling with
    | none => .ok { store with rolling := store.staging, staging := none }
    | some _ => .error .io)
  setMode .rolling 0o000
  writeRollingState ⟨version, none⟩
  aside

/-- The part of a materialization after the old base is gone. -/
def buildRolling (version : VersionNumber) : BaseM Id (ℕ × ℕ) := do
  let manifest ← query (fun r => r.manifestAt version)
  call (fun store => .ok { store with staging := some ⟨.nothing, 0o755⟩ })
  let counts ← apply .staging .nothing (manifest.entries.toList.map (fun e => (e.1, some e.2)))
  aside
  publishRolling version
  return counts

/-- Replaces the rolling base with a cold materialization. -/
def materializeRolling (version : VersionNumber) : BaseM Id (ℕ × ℕ) := do
  dropRolling
  match ← (buildRolling version).caught with
  | .ok counts => return counts
  | .error e => do
      abandon
      .fail e

inductive BaseSource where
  | cached
  | materialized
  | advanced
  | derived
deriving DecidableEq

structure BaseReport where
  version : VersionNumber
  source : BaseSource
  derivedFrom : Option VersionNumber
  changedPaths : ℕ
  writtenBytes : ℕ

omit [LinearOrder Id] [Encoding Id] in
/-- The version of a base that is there, with no advance in progress. -/
def heldVersion : BaseM Id (Option VersionNumber) := do
  match ← rollingState with
  | some ⟨held, none⟩ =>
      if ← look (fun store => store.rolling.isSome) then
        if MAX_VERSION < held then .fail .io else return some held
      else return none
  | _ => return none

/-- Brings the rolling base to a version and returns the World it holds afterwards.  It is left alone when
ahead. -/
def ensureRolling (version : VersionNumber) : BaseM Id (VersionNumber × BaseReport) := do
  match ← heldVersion with
  | some held =>
      if version ≤ held then return (held, ⟨version, .cached, none, 0, 0⟩)
      else do
        let (changed, written) ← advanceRolling held version
        return (version, ⟨version, .advanced, some held, changed, written⟩)
  | none => do
      let (changed, written) ← materializeRolling version
      return (version, ⟨version, .materialized, none, changed, written⟩)

/-! ### Commands -/

omit [LinearOrder Id] [Encoding Id] in
/-- A Layer whose directory is reclaimable: a terminal discard, or a successful Publish. -/
def terminal (r : Repository Id) (layer : LayerId) : Bool :=
  (r.successOf layer).isSome ||
    match (r.events layer).toList.getLast? with
    | some (_, event) => event.discarded
    | none => false

omit [LinearOrder Id] [Encoding Id] in
/-- A crash mid-advance leaves the rolling base partial: drop it, and the next create rebuilds it cold. -/
def dropPartial : BaseM Id Unit := do
  match ← rollingState with
  | some ⟨_, some _⟩ => dropRolling
  | _ => return ()

/-- Finishes interrupted steps. -/
def recover : BaseM Id Unit := do
  let terminal ← query (fun r => .ok (terminal r))
  call (fun store => .ok { store with staging := none })
  call (fun store =>
    .ok { store with layers := fun layer => if terminal layer then none else store.layers layer })
  dropPartial
  if ← look (fun store => store.rolling.isSome) then setMode .rolling 0o000
  aside

/-- Finishes interrupted steps under the lock. -/
def recoverWorkspaces : BaseM Id Unit := recover

/-- Clones the rolling base into staging. -/
def cloneTree (held : VersionNumber) : BaseM Id Unit :=
  call (fun store =>
    match store.rolling with
    | none => .error .io
    | some folder => .ok { store with
        staging := some folder
        clones := (held, folder.disk) :: store.clones })

/-- If the rolling base is ahead of the Layer, rewinds the clone to its World. -/
def rewind (held version : VersionNumber) (base : BaseReport) : BaseM Id BaseReport := do
  if version < held then
    let changes ← differences held version
    let (changed, written) ← apply .staging (.at held) changes.entries.toList
    return { base with
      source := .derived, derivedFrom := some held, changedPaths := changed, writtenBytes := written }
  else return base

def applyCheckpoint (checkpoint : LayerCheckpoint Id) : BaseM Id ℕ := do
  if checkpoint.changes.entries.toList = [] then return 0
  else
    let (applied, _) ← apply .staging (.at checkpoint.base.version) checkpoint.changes.entries.toList
    return applied

/-- A Layer's directory from the rolling base, which holds `held`. -/
def buildLayer (layer : LayerId) (checkpoint : LayerCheckpoint Id) (held : VersionNumber) (base : BaseReport) :
    BaseM Id (BaseReport × ℕ) := do
  unsealed .rolling (cloneTree held)
  setMode .staging 0o755
  let base ← rewind held checkpoint.base.version base
  let applied ← applyCheckpoint checkpoint
  aside
  call (fun store => .ok { store with
    layers := Function.update store.layers layer store.staging
    staging := none })
  aside
  aside
  return (base, applied)

/-- The result of opening a Layer's directory. -/
structure WorkspaceReport where
  created : Bool
  base : Option BaseReport
  applied : ℕ

/-- Materializes an active Layer's directory by cloning the rolling base and applying its checkpoint. -/
def openWorkspace (layer : LayerId) : BaseM Id WorkspaceReport := do
  recover
  match ← query (fun r => r.layerStateIn layer) with
  | .published _ operation _ => .fail (.repository (.layerPublished layer operation))
  | .discarded _ _ _ => .fail (.repository (.invalidInput "Layer is discarded"))
  | .active head => do
      if ← look (fun store => (store.layers layer).isSome) then return ⟨false, none, 0⟩
      else do
        let checkpoint ← query (fun r => r.readDeep head.checkpoint)
        let (held, base) ← ensureRolling checkpoint.base.version
        match ← (buildLayer layer checkpoint held base).caught with
        | .ok (base, applied) => return ⟨true, some base, applied⟩
        | .error e => do
            abandon
            .fail e

/-- What a Publish or a discard does to the store once its transaction is through. -/
def reclaimPublished (layer : LayerId) : BaseM Id Unit := do
  if ← look (fun store => (store.layers layer).isSome) then
    aside
    call (fun store => .ok { store with layers := Function.update store.layers layer none })
    aside
  recover

/-- Brings the rolling base to the head World. -/
def warmBase : BaseM Id BaseReport := do
  let head ← query (fun r => r.headIn)
  let (_, report) ← ensureRolling head.number
  return report

end RollingBase

end Javelin
