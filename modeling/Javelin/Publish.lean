import Javelin.Layers

/-! # Publication

A publication is prepared against one state of the repository (`prepareIn`): it validates the
records it builds on and composes the Layer's delta with the World head (`composeIn`), or finds
the paths that conflict.  A later transaction (`commitIn`) does nothing if the World, the Layer or
the operation has moved in between, and otherwise writes the version, the receipt and the indexes
together.  `receiptIn` reads a stored publication again and validates it from the tables. -/

namespace Javelin

open KeyedList

variable {Id : Type}

/-- The new version's changeset and its derived tree, with the chunks to store. -/
structure Composition (Id : Type) where
  changes : SparseChanges Id
  tree : Id
  chunks : List (Id × Chunk Id)

/-- The input of a publication. -/
structure PublishCall (Id : Type) where
  operation : OperationId
  expected : LayerHead Id
  attribution : PublishAttribution Id
deriving DecidableEq

/-- Everything the advance decided from one state.  `composed` is `none` when the Layer is no longer
the exact active head. -/
structure Plan (Id : Type) where
  against : WorldVersion Id
  actual : LayerState Id
  warnings : List PublishWarning
  composed : Option (List RepoPath ⊕ Composition Id)

inductive Prepared (Id : Type) where
  | replay (receipt : PublicationReceipt Id)
  | advance (plan : Plan Id)

/-- The caller's check of the locked World and the changes that would be applied to it. -/
abbrev Guard (Id : Type) := WorldVersion Id → SparseChanges Id → Except (Error Id) Unit

/-- The revision of a state. -/
def LayerState.revision : LayerState Id → ℕ
  | active head => head.revision
  | published head _ _ => head.revision
  | discarded _ revision _ => revision

/-- The publication that a state observes. -/
def LayerState.observedPublication : LayerState Id → Option OperationId
  | published _ operation _ => some operation
  | _ => none

def PublishOutcome.tag : PublishOutcome Id → PublicationTag
  | published _ => .published
  | conflict _ => .conflict
  | layerStale _ => .layerStale

def PublishOutcome.result : PublishOutcome Id → Option VersionNumber
  | published version => some version.number
  | _ => none

variable [LinearOrder Id] [Encoding Id]

namespace Repository
variable (r : Repository Id)

/-! ### Composition -/

/-- The Layer's delta on the World `world`, or the endpoints of its intersections with what changed
between the Layer's base and `world`. -/
def composeIn (head : LayerHead Id) (world : WorldVersion Id) :
    Except (Error Id) (List RepoPath ⊕ Composition Id) := do
  let checkpoint ← r.checkpointIn head.checkpoint
  refuse (world.number < checkpoint.base.version) (corrupt "publication World precedes Layer base")
  let base ← r.treeIn checkpoint.base.version
  let (found, t) ← Trees.intersections base world.tree checkpoint.changes (r.objects.trees (.buffer []))
  if found.keys ≠ [] then return .inl found.keys
  else do
    let (tree, t) ← Trees.apply world.tree checkpoint.changes t
    return .inr ⟨checkpoint.changes, tree, t.store.buffered⟩

/-- What an attribution warns of. -/
def warningsIn : PublishAttribution Id → Except (Error Id) (List PublishWarning)
  | .human => return []
  | .agent (some id) _ => do
      let _ ← r.objects.readBlob id
      return []
  | .agent none true => return [.missingAgentTrace]
  | .agent none false => throw .missingAgentTrace

/-! ### Stored publications -/

def worldAt (number : VersionNumber) : Except (Error Id) (WorldVersion Id) :=
  rewrap "missing publication World" (r.versionIn number)

/-- The terminal state that a successful publication leaves. -/
def successState (operation : OperationId) (row : PublicationRow Id) :
    Except (Error Id) (LayerState Id) := do
  refuse (row.outcome ≠ .published) (corrupt "observation is not a successful publication")
  let head ← r.layerHeadIn row.layer row.expected
  match row.result with
  | none => throw (corrupt "missing publication result")
  | some result => do
      let version ← r.worldAt result
      return .published head operation version

/-- The Layer state that a publication observed. -/
def observedIn (operation : OperationId) (row : PublicationRow Id) :
    Except (Error Id) (LayerState Id) := do
  let observed ← r.eventStateIn row.layer row.observed
  match row.observedPublication with
  | none => return observed
  | some id =>
      match r.publications.get? id with
      | none => throw (corrupt "missing observed publication")
      | some prior => do
          refuse (prior.layer ≠ row.layer) (corrupt "missing observed publication")
          refuse (id = operation ∨ prior.expected ≠ row.observed ∨
            prior.result.all (fun n => decide (row.against < n)) = true)
            (corrupt "invalid observed publication binding")
          r.successState id prior

/-- A success of the Layer, in the World that a publication saw, is not what it observed. -/
def ignoresTerminal (row : PublicationRow Id) : Bool :=
  r.publications.toList.any (fun e => decide (e.2.layer = row.layer) &&
    decide (e.2.outcome = .published) && e.2.result.any (fun n => decide (n ≤ row.against)) &&
    decide (row.observedPublication ≠ some e.1))

/-- The outcome of a successful publication, composed again. -/
def publishedOutcome (operation : OperationId) (row : PublicationRow Id) (expected : LayerHead Id)
    (against : WorldVersion Id) (observed : LayerState Id) : Except (Error Id) (PublishOutcome Id) :=
  match row.result with
  | none => throw (corrupt "missing publication result")
  | some result => do
      refuse (observed ≠ .active expected ∨ row.worldOperation ≠ some operation ∨
        r.attempts.get? operation = none ∨ row.against + 1 ≠ result)
        (corrupt "invalid successful publication binding")
      let latest ← r.latestEventStateIn row.layer
      refuse (latest ≠ observed) (corrupt "invalid successful publication binding")
      match ← r.composeIn expected against with
      | .inl _ => throw (corrupt "successful publication intersects World changes")
      | .inr candidate => do
          let version ← r.worldAt result
          refuse (version.operation ≠ some operation ∨ version.tree ≠ candidate.tree ∨
            version.id ≠ versionId (some against.id) candidate.tree candidate.changes)
            (corrupt "published World disagrees with complete Layer composition")
          let changes ← r.changesetIn version.number
          refuse (changes ≠ candidate.changes)
            (corrupt "published World disagrees with complete Layer composition")
          return .published version

/-- The outcome of a publication, derived again. -/
def outcomeIn (operation : OperationId) (row : PublicationRow Id) (expected : LayerHead Id)
    (against : WorldVersion Id) (observed : LayerState Id) : Except (Error Id) (PublishOutcome Id) :=
  match row.outcome with
  | .published => r.publishedOutcome operation row expected against observed
  | .conflict => do
      refuse (r.attempts.get? operation ≠ none ∨ row.result ≠ none ∨ row.worldOperation ≠ none)
        (corrupt "failed publication owns a World attempt")
      refuse (observed ≠ .active expected) (corrupt "conflict did not observe exact Active head")
      match ← r.composeIn expected against with
      | .inr _ => throw (corrupt "publication conflict has no intersections")
      | .inl paths => return .conflict paths
  | .layerStale => do
      refuse (r.attempts.get? operation ≠ none ∨ row.result ≠ none ∨ row.worldOperation ≠ none)
        (corrupt "failed publication owns a World attempt")
      refuse (observed = .active expected) (corrupt "stale publication observed exact Active head")
      return .layerStale observed

/-- Validates one stored publication against its own bindings, its Layer's other records and the
Worlds it names. -/
def receiptIn (operation : OperationId) (row : PublicationRow Id) :
    Except (Error Id) (PublicationReceipt Id) := do
  let expected ← r.layerHeadIn row.layer row.expected
  refuse (expected.checkpoint ≠ row.checkpoint ∨ row.observed < row.expected)
    (corrupt "publication checkpoint or observation disagrees")
  let against ← r.worldAt row.against
  let checkpoint ← r.checkpointIn expected.checkpoint
  refuse (against.number < checkpoint.base.version) (corrupt "publication World precedes Layer base")
  let warnings ← r.warningsIn row.attribution
  let observed ← r.observedIn operation row
  refuse (r.ignoresTerminal row = true) (corrupt "publication ignored a terminal Layer")
  let outcome ← r.outcomeIn operation row expected against observed
  let receipt : PublicationReceipt Id := ⟨operation, expected, row.attribution, against, warnings, outcome⟩
  let bytes ← r.objects.readBlob row.receipt
  refuse (bytes ≠ receiptBytes receipt) (corrupt "publication receipt disagrees with immutable bindings")
  return receipt

/-- Recovers a stored receipt, validated. -/
def publication (operation : OperationId) : Except (Error Id) (Option (PublicationReceipt Id)) :=
  match r.publications.get? operation with
  | none => return none
  | some row => do
      let receipt ← r.receiptIn operation row
      return some receipt

/-! ### Layer states -/

/-- The successful publication of a Layer. -/
def successOf (layer : LayerId) : Option (OperationId × PublicationRow Id) :=
  r.publications.toList.find? (fun e => decide (e.2.layer = layer) && decide (e.2.outcome = .published))

/-- The terminal state of a published Layer, verified through its receipt. -/
def publishedStateIn (layer : LayerId) : Except (Error Id) (Option (LayerState Id)) :=
  match r.successOf layer with
  | none => return none
  | some (operation, row) => do
      let _ ← r.receiptIn operation row
      let state ← r.successState operation row
      return some state

def layerStateIn (layer : LayerId) : Except (Error Id) (LayerState Id) := do
  match ← r.publishedStateIn layer with
  | some state => return state
  | none => r.latestEventStateIn layer

/-- Refuses a new operation on a published Layer.  A recorded one keeps its outcome. -/
def refusePublished (operation : OperationId) (layer : LayerId) : Except (Error Id) Unit :=
  match r.layerAttempts.get? operation with
  | some _ => return ()
  | none => do
      match ← r.publishedStateIn layer with
      | some (.published _ published _) => throw (.layerPublished layer published)
      | _ => return ()

/-! ### Preparing -/

/-- The override only permits a missing trace. -/
def checkOverride : PublishAttribution Id → Except (Error Id) Unit
  | .agent (some _) true =>
      throw (.invalidInput "allow_missing_trace applies only when no context is supplied")
  | _ => return ()

/-- The receipt of the publication that made a version reads back. -/
def checkHeadReceipt (against : WorldVersion Id) : Except (Error Id) Unit :=
  match against.operation with
  | none => return ()
  | some operation => do
      let _ ← r.publication operation
      return ()

/-- The receipts of a Layer's publications read back. -/
def checkLayerReceipts (layer : LayerId) : Except (Error Id) Unit :=
  (r.publications.toList.filter (fun e => e.2.layer = layer)).forM (fun e => do
    let _ ← r.receiptIn e.1 e.2
    return ())

/-- The composition, if the Layer is the exact active head. -/
def composeActive (expected : LayerHead Id) (against : WorldVersion Id) (actual : LayerState Id) :
    Except (Error Id) (Option (List RepoPath ⊕ Composition Id)) :=
  if actual = .active expected then do
    let composed ← r.composeIn expected against
    return some composed
  else return none

/-- The plan of an operation that is not recorded. -/
def planIn (call : PublishCall Id) : Except (Error Id) (Plan Id) := do
  refuse (r.attempts.get? call.operation ≠ none) (.operationIdReused call.operation)
  r.verifyHead call.expected
  let warnings ← r.warningsIn call.attribution
  checkOverride call.attribution
  let against ← r.headIn
  r.checkHeadReceipt against
  r.checkLayerReceipts call.expected.layer
  let actual ← r.layerStateIn call.expected.layer
  let composed ← r.composeActive call.expected against actual
  return ⟨against, actual, warnings, composed⟩

def prepareIn (call : PublishCall Id) : Except (Error Id) (Prepared Id) := do
  match ← r.publication call.operation with
  | some receipt => do
      refuse (receipt.expected ≠ call.expected ∨ receipt.attribution ≠ call.attribution)
        (.operationIdReused call.operation)
      return .replay receipt
  | none => do
      let plan ← r.planIn call
      return .advance plan

/-! ### Committing -/

/-- Stores chunks that were computed before. -/
def insertChunks (objects : Objects Id) (chunks : List (Id × Chunk Id)) : Except (Error Id) (Objects Id) :=
  chunks.foldlM (fun objects chunk => do
    let (_, objects) ← objects.insert (.tree chunk.2)
    return objects) objects

/-- The blame row of a published path: what the index says of it. -/
def blameRow (tracked : SortedMap RepoPath (Tracked Id)) (rows : SortedMap RepoPath (BlameRow Id))
    (path : RepoPath) : Except (Error Id) (SortedMap RepoPath (BlameRow Id)) :=
  match tracked.get? path with
  | none => throw (corrupt "published path missing from the Layer index")
  | some t => return rows.insert path ⟨t.checkpoint, t.provenance⟩

/-- Records the published Layer's attribution for a version, from the index. -/
def recordBlame (layer : LayerId) (version : VersionNumber) (changes : SparseChanges Id) :
    Except (Error Id) (Repository Id) := do
  let rows ← changes.entries.keys.foldlM (blameRow (r.trackedIn layer)) SortedMap.empty
  return { r with blame := r.blame.insert version rows }

/-- Appends the composed version, with its attempt, chunks and blame. -/
def publishVersion (call : PublishCall Id) (against : WorldVersion Id) (composition : Composition Id) :
    Except (Error Id) (WorldVersion Id × Repository Id) := do
  let number ← nextNumber against.number
  let attempts := r.attempts.insert call.operation ⟨against.number, none, true, number⟩
  let objects ← insertChunks r.objects composition.chunks
  let (version, r) ← { r with attempts := attempts, objects := objects }.appendVersionIn against
    call.operation composition.changes composition.tree
  let r ← r.recordBlame call.expected.layer version.number composition.changes
  return (version, r.untrackIn call.expected.layer)

/-- What a plan does, if it is still up to date. -/
def applyPlan (call : PublishCall Id) (plan : Plan Id) (guard : Guard Id) :
    Except (Error Id) (PublishOutcome Id × Repository Id) :=
  match plan.composed with
  | none => return (.layerStale plan.actual, r)
  | some (.inl paths) => return (.conflict paths, r)
  | some (.inr composition) => do
      guard plan.against composition.changes
      let (version, r) ← r.publishVersion call plan.against composition
      return (.published version, r)

/-- Stores the receipt and its row. -/
def storeReceipt (call : PublishCall Id) (plan : Plan Id) (outcome : PublishOutcome Id) :
    Except (Error Id) (PublicationReceipt Id × Repository Id) := do
  let receipt : PublicationReceipt Id :=
    ⟨call.operation, call.expected, call.attribution, plan.against, plan.warnings, outcome⟩
  let (blob, objects) ← r.objects.insert (.blob (receiptBytes receipt))
  let row : PublicationRow Id :=
    { layer := call.expected.layer
      expected := call.expected.revision
      checkpoint := call.expected.checkpoint
      against := plan.against.number
      observed := plan.actual.revision
      observedPublication := plan.actual.observedPublication
      attribution := call.attribution
      outcome := outcome.tag
      result := outcome.result
      worldOperation := outcome.result.map (fun _ => call.operation)
      receipt := blob }
  return (receipt, { r with
    objects := objects
    publications := r.publications.insert call.operation row })

/-- Whether a plan may still be carried out: nothing it was decided from has moved. -/
def current (call : PublishCall Id) (plan : Plan Id) : Except (Error Id) Bool :=
  if r.operationExists call.operation = true ∨ r.attempts.get? call.operation ≠ none then return false
  else do
    let head ← r.headIn
    if head ≠ plan.against then return false
    else do
      let actual ← r.layerStateIn call.expected.layer
      return decide (actual = plan.actual)

/-- The write transaction of a publication.  `none` asks for a new plan. -/
def commitIn (call : PublishCall Id) (plan : Plan Id) (guard : Guard Id) :
    Except (Error Id) (Option (PublicationReceipt Id × Repository Id)) := do
  if ← r.current call plan then do
    let (outcome, r) ← r.applyPlan call plan guard
    let done ← r.storeReceipt call plan outcome
    return some done
  else return none

/-- `publish_layer` without interference, in at most so many rounds of preparing and committing. -/
def publishLayer (call : PublishCall Id) (guard : Guard Id) :
    ℕ → Except (Error Id) (PublicationReceipt Id × Repository Id)
  | 0 => throw (.storage "no round is left")
  | rounds + 1 => do
      match ← r.prepareIn call with
      | .replay receipt => return (receipt, r)
      | .advance plan =>
          match ← r.commitIn call plan guard with
          | some done => return done
          | none => publishLayer call guard rounds

/-! ### Operations on Layers -/

def layerBase (version : VersionNumber) : Except (Error Id) (LayerBase Id) := do
  let world ← r.versionIn version
  return ⟨r.identity, version, world.id⟩

/-- Creates an empty Layer; a retry with the same base returns the initial head. -/
def createLayer (layer : LayerId) (base : LayerBase Id) : Except (Error Id) (LayerHead Id × Repository Id) := do
  let (empty, r) ← r.prepareCheckpoint base SparseChanges.empty [] none
  r.createIn layer empty

/-- Creates a Layer at an existing checkpoint. -/
def cloneLayer (layer : LayerId) (checkpoint : Id) : Except (Error Id) (LayerHead Id × Repository Id) := do
  let frozen ← r.checkpointIn checkpoint
  r.createIn layer ⟨checkpoint, frozen.changes, frozen.provenance⟩

/-- Captures a complete delta relative to the Layer's base. -/
def captureLayer (operation : OperationId) (expected : LayerHead Id) (changes : SparseChanges Id)
    (provenance : Option Provenance) : Except (Error Id) (LayerUpdate Id × Repository Id) := do
  r.verifyHead expected
  r.refusePublished operation expected.layer
  let before ← r.checkpointIn expected.checkpoint
  let (candidate, r) ← r.prepareCheckpoint before.base changes before.sources provenance
  r.updateIn operation ⟨expected, candidate, false, none, none⟩

/-- Discards a Layer.  Its checkpoint stays the last one. -/
def discardLayer (operation : OperationId) (expected : LayerHead Id) :
    Except (Error Id) (LayerUpdate Id × Repository Id) := do
  r.verifyHead expected
  r.refusePublished operation expected.layer
  r.updateIn operation ⟨expected, ⟨expected.checkpoint, SparseChanges.empty, none⟩, true, none, none⟩

/-- `commit_stack_resolved`: captures a prepared merge with a source. -/
def commitStack (operation : OperationId) (expected : LayerHead Id) (source : Id)
    (changes : SparseChanges Id) (resolution : Option Id) (provenance : Option Provenance) :
    Except (Error Id) (LayerUpdate Id × Repository Id) := do
  r.verifyHead expected
  r.refusePublished operation expected.layer
  let _ ← r.checkpointIn source
  let before ← r.checkpointIn expected.checkpoint
  let (candidate, r) ← r.prepareCheckpoint before.base changes (sortDedup (before.sources ++ [source])) provenance
  r.updateIn operation ⟨expected, candidate, false, some source, resolution⟩

/-- `replay_in`: the recorded outcome of a Stack. -/
def stackOperation (operation : OperationId) (expected : LayerHead Id) (source : Id)
    (resolution : Option Id) : Except (Error Id) (Option (LayerUpdate Id)) :=
  match r.layerAttempts.get? operation with
  | none => return none
  | some prior => do
      refuse (prior.layer ≠ expected.layer ∨ prior.expected ≠ expected.revision)
        (.operationIdReused operation)
      let outcome ← r.layerOutcome operation
      refuse (r.sourceIn operation ≠ some source) (.operationIdReused operation)
      let stored ← r.resolutionIn operation
      refuse (stored ≠ resolution) (.operationIdReused operation)
      r.verifyHead expected
      return some outcome

end Repository

end Javelin
