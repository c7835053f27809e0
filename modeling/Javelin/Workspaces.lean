import Javelin.LayerRequests
import Javelin.Refresh
import Javelin.Versions

/-! # The directory of a Layer

A `Workspace` is a repository with the directory of one of its Layers and the sync record beside it:
the checkpoint the directory was last synchronised with.  `captureWorkspace` and `captureDirectory` scan
a directory into a new head (`captureAt`) unless the directory is `Behind`: Stack produced the head and
the directory is not synchronised with it.  `refreshIn` brings the directory to the head, and may be
stopped after any number of its writes.

`Step` is one operation of any client. -/

namespace Javelin

open KeyedList

/-! ### Contents -/

section contents
variable {α β : Type}

def FileEntry.map (f : α → β) : FileEntry α → FileEntry β
  | .regular content executable => .regular (f content) executable
  | .symlink target => .symlink (f target)

def Found.map (f : α → β) : Found α → Found β
  | .file entry => .file (entry.map f)
  | .dir => .dir

/-- A map with each value changed. -/
def mapValues {K : Type} [LinearOrder K] (f : α → β) (m : SortedMap K α) : SortedMap K β :=
  ⟨m.toList.map (fun e => (e.1, f e.2)), m.ascending.map (fun _ _ => rfl)⟩

theorem get?_mapValues {K : Type} [LinearOrder K] (f : α → β) (m : SortedMap K α) (k : K) :
    (mapValues f m).get? k = (m.get? k).map f := by
  unfold SortedMap.get? mapValues
  have hkey : ∀ e : K × α, (e.1, f e.2).1 = k ↔ e.1 = k := fun _ => Iff.rfl
  rw [lookup_map hkey, Option.map_map, Option.map_map]
  rfl

/-- The same directory with other contents. -/
def Disk.map (f : α → β) (d : Disk α) : Disk β where
  found := mapValues (Found.map f) d.found
  valid := by
    intro p hp
    rw [SortedMap.mem_keys, get?_mapValues, Option.isSome_map] at hp
    exact d.valid p (SortedMap.mem_keys.mpr hp)
  within := by
    intro p hp a ha
    rw [SortedMap.mem_keys, get?_mapValues, Option.isSome_map] at hp
    rw [get?_mapValues, d.within p (SortedMap.mem_keys.mpr hp) a ha]
    rfl

theorem Disk.file_map (f : α → β) (d : Disk α) (p : RepoPath) : (d.map f).file p = (d.file p).map (FileEntry.map f) := by
  have hat : (d.map f).at? p = (d.at? p).map (Found.map f) := get?_mapValues _ _ _
  unfold Disk.file
  rw [hat]
  cases d.at? p with
  | none => rfl
  | some found => cases found <;> rfl

end contents

variable {Id : Type} [LinearOrder Id] [Encoding Id]

/-! ### Scanning and capturing -/

/-- A directory with each file given by the ID of its content. -/
def hashed (directory : Disk Str) : Disk Id := directory.map (fun bytes => objectId (.blob bytes : Object Id))

/-- The result of capturing a directory: no update if it matches the head already, and nothing scanned
if it lacks the head's work. -/
structure Capture (Id : Type) where
  update : Option (LayerUpdate Id)
  operation : Option OperationId
  head : LayerHead Id
  changes : SparseChanges Id
  behind : Bool

/-- `Capture::behind`. -/
def Capture.ofBehind {Id : Type} (head : LayerHead Id) : Capture Id := ⟨none, none, head, SparseChanges.empty, true⟩

namespace Repository
variable (r : Repository Id)

/-- The accepted operation of a Layer's revision stacked a source. -/
def stackedAt (layer : LayerId) (revision : ℕ) : Bool :=
  match (r.events layer).get? revision with
  | some ⟨_, _, some operation⟩ =>
      match r.layerAttempts.get? operation with
      | some attempt => attempt.stack
      | none => false
  | _ => false

/-- `stacked`: Stack produced the head. -/
def stacked (head : LayerHead Id) : Bool := r.stackedAt head.layer head.revision

/-- `checkpoint_manifest`: the base World plus the changes. -/
def checkpointManifest (id : Id) : Except (Error Id) (Manifest Id) := do
  let frozen ← r.checkpointIn id
  let root ← r.treeIn frozen.base.version
  let (entries, _) ← Trees.entries root (r.objects.trees .verify)
  Manifest.ofMap (frozen.changes.apply entries)

/-- Scans a directory and stores the contents of its files. -/
def scanInto (root : Disk Str) : Except (Error Id) (Manifest Id × Repository Id) := do
  let r ← root.scan.entries.toList.foldlM (fun r e => do
    let (_, r) ← r.putBlob e.2.content
    return r) r
  return ((hashed root).scan, r)

/-- `capture_at`: scans a directory against the head and commits any difference, under the operation
ID that `operationId` derives from the input. -/
def captureAt (operationId : LayerHead Id → SparseChanges Id → Option Provenance → OperationId)
    (head : LayerHead Id) (root : Disk Str) (provenance : Option Provenance) :
    Except (Error Id) (Capture Id × Repository Id) := do
  let checkpoint ← r.readDeep head.checkpoint
  let base ← r.manifestAt checkpoint.base.version
  let _ ← r.checkpointManifest checkpoint.id
  let (scanned, r) ← r.scanInto root
  let changes := Refresh.changesFrom base scanned
  if changes = checkpoint.changes then return (⟨none, none, head, changes, false⟩, r)
  else do
    let operation := operationId head changes provenance
    let (update, r) ← r.captureLayer operation head changes provenance
    return (⟨some update, some operation, head, changes, false⟩, r)

/-- The bytes of one write, as `write_entry` reads them. -/
def loadWrite (w : Write Id) : Except (Error Id) (Write Str) :=
  match w.2 with
  | none => return (w.1, none)
  | some (.regular content executable) => do
      let bytes ← r.objects.readBlob content
      return (w.1, some (.regular bytes executable))
  | some (.symlink target) => do
      let bytes ← r.objects.readBlob target
      return (w.1, some (.symlink bytes))

end Repository

/-! ### A Layer's directory -/

/-- A repository, the directory of one of its Layers, and the checkpoint in its sync record. -/
structure Workspace (Id : Type) where
  layer : LayerId
  system : System Id
  sync : Option Id
  directory : Disk Str

/-- Why a refresh did not go through. -/
inductive RefreshError (Id : Type) where
  | repository (error : Error Id)
  | inactive
  | unsynced
  | changedBase
  | conflict (paths : List RepoPath)
  | io

namespace Workspace
variable (w : Workspace Id)

def repository : Repository Id := w.system.repository

/-- The workspace over a changed repository. -/
def withRepository (r : Repository Id) : Workspace Id := { w with system := ⟨r, w.system.plans⟩ }

/-- The directory lacks the work that Stack put into the head. -/
def Behind (head : LayerHead Id) : Prop := w.repository.stacked head = true ∧ w.sync ≠ some head.checkpoint

instance (head : LayerHead Id) : Decidable (w.Behind head) := inferInstanceAs (Decidable (_ ∧ _))

/-- The checkpoint that a directory matches after a capture. -/
def matched (capture : Capture Id) : Option Id :=
  match capture.update with
  | none => some capture.head.checkpoint
  | some (.applied (.active head)) => some head.checkpoint
  | _ => none

/-- `capture_synced` of the Layer's own directory, or of another root.  Only the first moves the sync
record. -/
def captureSynced (operationId : LayerHead Id → SparseChanges Id → Option Provenance → OperationId)
    (head : LayerHead Id) (root : Option (Disk Str)) (provenance : Option Provenance) :
    Except (Error Id) (Capture Id × Workspace Id) :=
  if w.Behind head then return (.ofBehind head, w)
  else do
    let (capture, r) ← w.repository.captureAt operationId head (root.getD w.directory) provenance
    let captured := w.withRepository r
    match matched capture, root with
    | some checkpoint, none => return (capture, { captured with sync := some checkpoint })
    | _, _ => return (capture, captured)

/-- `capture_workspace`: nothing for a Layer that is not active. -/
def captureWorkspace (operationId : LayerHead Id → SparseChanges Id → Option Provenance → OperationId)
    (provenance : Option Provenance) : Except (Error Id) (Option (Capture Id) × Workspace Id) := do
  match ← w.repository.layerStateIn w.layer with
  | .active head => do
      let (capture, w) ← w.captureSynced operationId head none provenance
      return (some capture, w)
  | _ => return (none, w)

/-- `capture_directory` of the Layer's own directory, or of another root. -/
def captureDirectory (operationId : LayerHead Id → SparseChanges Id → Option Provenance → OperationId)
    (root : Option (Disk Str)) (provenance : Option Provenance) :
    Except (Error Id) (Capture Id × Workspace Id) := do
  match ← w.repository.layerStateIn w.layer with
  | .active head => w.captureSynced operationId head root provenance
  | _ => throw (.invalidInput "Layer is not active")

/-- A repository call inside a refresh. -/
def attempt {α : Type} (x : Except (Error Id) α) : Except (RefreshError Id) α := x.mapError .repository

/-- `refresh_workspace`, stopped after some of its writes or carried through. -/
def refreshIn (stop : Option ℕ) : Except (RefreshError Id) (Workspace Id) := do
  match ← attempt (w.repository.layerStateIn w.layer), w.sync with
  | .active head, some sync =>
      if sync = head.checkpoint then return w
      else do
        let before ← attempt (w.repository.readDeep sync)
        let after ← attempt (w.repository.readDeep head.checkpoint)
        if before.base.version ≠ after.base.version then throw .changedBase
        else do
          let base ← attempt (w.repository.checkpointManifest sync)
          let target ← attempt (w.repository.checkpointManifest head.checkpoint)
          let (_, r) ← attempt (w.repository.scanInto w.directory)
          match Refresh.preview base target (hashed w.directory) with
          | .error paths => throw (.conflict paths)
          | .ok plan => do
              let writes ← attempt (plan.writes.mapM r.loadWrite)
              match Refresh.perform w.directory (writes.take (stop.getD writes.length)) with
              | none => throw .io
              | some directory =>
                  let refreshed := { w.withRepository r with directory := directory }
                  if stop = none then return { refreshed with sync := some head.checkpoint }
                  else return refreshed
  | .active _, none => throw .unsynced
  | _, _ => throw .inactive

/-! ### Steps -/

/-- One operation of any client.  An explicit capture of a head is made where it is `allowed`. -/
inductive Step (operationId : LayerHead Id → SparseChanges Id → Option Provenance → OperationId)
    (allowed : Workspace Id → LayerHead Id → Prop) (w : Workspace Id) : Workspace Id → Prop
  | edit {directory} : Step operationId allowed w { w with directory := directory }
  | captureWorkspace {provenance capture w'} :
      w.captureWorkspace operationId provenance = .ok (capture, w') → Step operationId allowed w w'
  | captureDirectory {root provenance capture w'} :
      w.captureDirectory operationId root provenance = .ok (capture, w') → Step operationId allowed w w'
  | captureLayer {op expected changes provenance outcome r'} : allowed w expected →
      w.repository.captureLayer op expected changes provenance = .ok (outcome, r') →
      Step operationId allowed w (w.withRepository r')
  | commitStack {op expected source changes resolution provenance outcome r'} :
      w.repository.commitStack op expected source changes resolution provenance = .ok (outcome, r') →
      Step operationId allowed w (w.withRepository r')
  | refresh {stop w'} : w.refreshIn stop = .ok w' → Step operationId allowed w w'
  | elsewhere {system} : System.Step w.system system →
      system.repository.events w.layer = w.repository.events w.layer →
      Step operationId allowed w { w with system := system }

/-- Any number of operations. -/
abbrev Run (operationId : LayerHead Id → SparseChanges Id → Option Provenance → OperationId)
    (allowed : Workspace Id → LayerHead Id → Prop) : Workspace Id → Workspace Id → Prop :=
  Relation.ReflTransGen (Step operationId allowed)

/-- A workspace just opened: its directory is synchronised with the head. -/
structure Opened : Prop where
  reachable : w.system.Reachable
  synced : ∃ head, w.repository.layerStateIn w.layer = .ok (.active head) ∧ w.sync = some head.checkpoint

end Workspace

end Javelin
