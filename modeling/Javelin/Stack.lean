import Javelin.Interleaving
import Javelin.Workspaces

/-! # Stacking

`stackLayerResolved` imports what a source checkpoint changed since its own base into a target Layer.  It
merges the three manifests (`Merge.mergeResolved`), stores the merged contents, turns the merged manifest
into the delta against the target's base and commits that.  Nothing but blobs is written before the commit.

Every read, every stored blob and the commit is a transaction of its own, with other clients in between.
The merge is one step here: all it reads is immutable. -/

namespace Javelin

open KeyedList Merge

variable {Id : Type} [LinearOrder Id] [Encoding Id]

namespace Stack

/-! ### Answers -/

inductive StackOutcome (Id : Type) where
  | updated (update : LayerUpdate Id)
  | conflicts (conflicts : List (Conflict Id))

/-- An error of the repository. -/
inductive StorageError (Id : Type) where
  | error (error : Error Id)
  | objectTooLarge (id : Id) (size limit : ℕ)

inductive StackError (Id : Type) where
  | storage (error : StorageError Id)
  | merge (error : MergeError (StorageError Id))

/-- A command that stacks. -/
abbrev StackM (Id : Type) (α : Type) := Process Unit (System Id) (StackError Id) α

/-- A choice as the resolution object records it. -/
inductive Resolution (Id : Type) where
  | ours
  | theirs
  | content (content : Id) (executable : Option Bool)

/-- What comes from outside: the alias probe of the volume, the JSON text of a resolution, a path as `{:?}`
shows it, and the provenance of the repository handle. -/
structure Host (Id : Type) where
  aliasedPaths : List RepoPath → Except (StorageError Id) (List RepoPath)
  resolutionBytes : List (RepoPath × Resolution Id) → Str
  quoted : RepoPath → String
  provenance : Option Provenance

/-! ### Transactions -/

def storage {α : Type} (x : Except (Error Id) α) : Except (StackError Id) α :=
  x.mapError (fun e => .storage (.error e))

/-- A transaction that reads. -/
def reading {α : Type} (f : Repository Id → Except (Error Id) α) : StackM Id α :=
  .read () (fun s => storage (f s.repository))

/-- A transaction that writes. -/
def writing {α : Type} (f : Repository Id → Except (Error Id) (α × Repository Id)) : StackM Id α :=
  .transact () (fun s => do
    let (a, r) ← storage (f s.repository)
    return (a, ⟨r, s.plans⟩))

def putBlob (bytes : Str) : StackM Id Id := writing (fun r => r.putBlob bytes)

/-- `read_blob_bounded`.  The limit is on the encoded bytes of any object; only those of a blob are kept
here, and another object is refused for its kind. -/
def readBlobBounded (objects : Objects Id) (id : Id) (maxBytes : ℕ) : Except (StorageError Id) Str :=
  match objects.lookup id with
  | some (.blob bytes) =>
      if maxBytes < bytes.length then .error (.objectTooLarge id bytes.length maxBytes)
      else (objects.readBlob id).mapError .error
  | _ => (objects.readBlob id).mapError .error

/-! ### The command -/

section command
variable (host : Host Id)

/-- A choice with its content stored. -/
def storeChoice : Choice → StackM Id (Resolution Id)
  | .ours => return .ours
  | .theirs => return .theirs
  | .content bytes executable => do
      let content ← putBlob bytes
      return .content content executable

def storeChoices : List (RepoPath × Choice) → StackM Id (List (RepoPath × Resolution Id))
  | [] => return []
  | (path, choice) :: choices => do
      let resolution ← storeChoice choice
      let rest ← storeChoices choices
      return (path, resolution) :: rest

/-- Stores the choices as one blob. -/
def recordResolution (choices : SortedMap RepoPath Choice) : StackM Id Id := do
  let resolutions ← storeChoices choices.toList
  putBlob (host.resolutionBytes resolutions)

/-- The resolution of some choices; no choices have none. -/
def resolutionOf (choices : SortedMap RepoPath Choice) : StackM Id (Option Id) :=
  if choices.toList = [] then return none
  else do
    let id ← recordResolution host choices
    return some id

def probe (paths : List RepoPath) : Merge.Caller Unit (StorageError Id) (List RepoPath) := fun s => do
  let hits ← host.aliasedPaths paths
  return (hits, s)

def loader (r : Repository Id) (id : Id) : Merge.Caller Unit (StorageError Id) Str := fun s => do
  let bytes ← readBlobBounded r.objects id Resource.blobBytes.limit
  return (bytes, s)

/-- The merge over the contents that a repository stores. -/
def mergeIn (r : Repository Id) (base ours theirs : Manifest Id) (choices : SortedMap RepoPath Choice) :
    Except (MergeError (StorageError Id)) (MergeOutcome Id) := do
  let (outcome, _) ← mergeResolved base ours theirs choices (probe host) (loader r) ()
  return outcome

def merging (base ours theirs : Manifest Id) (choices : SortedMap RepoPath Choice) : StackM Id (MergeOutcome Id) :=
  .read () (fun s => (mergeIn host s.repository base ours theirs choices).mapError .merge)

/-- The entry of a merged path; new content is stored. -/
def storeEntry : Merged Id → StackM Id (FileEntry Id)
  | .retained entry => return entry
  | .content bytes executable => do
      let content ← putBlob bytes
      return .regular content executable

def storeEntries : List (RepoPath × Merged Id) → StackM Id (List (RepoPath × FileEntry Id))
  | [] => return []
  | (path, result) :: results => do
      let entry ← storeEntry result
      let rest ← storeEntries results
      return (path, entry) :: rest

/-- What follows a clean merge: contents, the delta against the target's base, and the commit. -/
def commitMerged (operation : OperationId) (target : LayerHead Id) (source : Id) (resolution : Option Id)
    (ours : LayerCheckpoint Id) (outcome : MergeOutcome Id) : StackM Id (StackOutcome Id) := do
  let entries ← storeEntries outcome.merged.toList
  match Manifest.ofMap (SortedMap.ofList entries) with
  | .error e => Process.fail (.storage (.error e))
  | .ok merged => do
      let targetBase ← reading (fun r => r.manifestAt ours.base.version)
      let update ← writing (fun r => r.commitStack operation target source
        (Refresh.changesFrom targetBase merged) resolution host.provenance)
      return .updated update

/-- What is done with an outcome of the merge. -/
def finish (operation : OperationId) (target : LayerHead Id) (source : Id) (resolution : Option Id)
    (ours : LayerCheckpoint Id) (outcome : MergeOutcome Id) : StackM Id (StackOutcome Id) :=
  match outcome.unused with
  | path :: _ => Process.fail (.storage (.error (.invalidInput
      ("resolution for " ++ host.quoted path ++ ", which is not a conflict"))))
  | [] =>
      if outcome.conflicts ≠ [] then return .conflicts outcome.conflicts
      else commitMerged host operation target source resolution ours outcome

/-- Imports the source's changes into the target, applying the owner's choices. -/
def stackLayerResolved (operation : OperationId) (target : LayerHead Id) (source : Id)
    (choices : SortedMap RepoPath Choice) : StackM Id (StackOutcome Id) := do
  let resolution ← resolutionOf host choices
  match ← reading (fun r => r.stackOperation operation target source resolution) with
  | some update => return .updated update
  | none => do
      let ours ← reading (fun r => r.readDeep target.checkpoint)
      let theirs ← reading (fun r => r.readDeep source)
      let base ← reading (fun r => r.manifestAt theirs.base.version)
      let oursManifest ← reading (fun r => r.checkpointManifest ours.id)
      let theirsManifest ← reading (fun r => r.checkpointManifest theirs.id)
      let outcome ← merging host base oursManifest theirsManifest choices
      finish host operation target source resolution ours outcome

/-- Without choices. -/
def stackLayer (operation : OperationId) (target : LayerHead Id) (source : Id) : StackM Id (StackOutcome Id) :=
  stackLayerResolved host operation target source SortedMap.empty

end command

end Stack

end Javelin
