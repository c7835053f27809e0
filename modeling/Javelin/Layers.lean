import Javelin.Checkpoints

/-! # Layers

Layer heads are events: revision 0 is the Layer's creation, every later one an accepted attempt
against its predecessor.  `updateIn` is what capture, Stack and discard share: it answers a
recorded operation, refuses a reused one, records the attempt and, if the expected revision is the
latest one and not discarded, the event.  `layerOutcome` reads a recorded outcome and checks it
against the events.

`layerPaths` indexes the changed paths of every live Layer: `trackIn` moves it to a new head,
`untrackIn` clears it. -/

namespace Javelin

open KeyedList

/-- The largest revision that can be stored is below this. -/
def REVISIONS : ℕ := 2 ^ 63

/-- The state after an event. -/
def Event.state {Id : Type} (event : Event Id) (repository : Id) (layer : LayerId) (revision : ℕ) :
    LayerState Id :=
  if event.discarded then .discarded layer revision event.checkpoint
  else .active ⟨repository, layer, revision, event.checkpoint⟩

variable {Id : Type} [LinearOrder Id] [Encoding Id]

namespace Repository
variable (r : Repository Id)

/-! ### Events -/

/-- The events of a Layer. -/
def events (layer : LayerId) : SortedMap ℕ (Event Id) := (r.layerHeads.get? layer).getD SortedMap.empty

def eventIn (layer : LayerId) (revision : ℕ) : Except (Error Id) (Event Id) :=
  match (r.events layer).get? revision with
  | none => throw (corrupt "missing Layer head event")
  | some event => return event

/-- The latest event and its revision. -/
def latestIn (layer : LayerId) : Except (Error Id) (ℕ × Event Id) :=
  match (r.events layer).toList.getLast? with
  | none => throw (.invalidInput "unknown Layer")
  | some latest => return latest

def eventStateIn (layer : LayerId) (revision : ℕ) : Except (Error Id) (LayerState Id) := do
  let event ← r.eventIn layer revision
  return event.state r.identity layer revision

def layerHeadIn (layer : LayerId) (revision : ℕ) : Except (Error Id) (LayerHead Id) := do
  match ← r.eventStateIn layer revision with
  | .active head => return head
  | _ => throw (corrupt "expected an Active Layer event")

def latestEventStateIn (layer : LayerId) : Except (Error Id) (LayerState Id) := do
  let (revision, event) ← r.latestIn layer
  return event.state r.identity layer revision

/-- A head token names an event that is not a discard. -/
def verifyHead (head : LayerHead Id) : Except (Error Id) Unit := do
  refuse (r.identity ≠ head.repository) (.invalidInput "foreign Layer head")
  refuse (REVISIONS ≤ head.revision) (.invalidInput "Layer revision overflow")
  let event ← r.eventIn head.layer head.revision
  refuse (event.discarded = true ∨ event.checkpoint ≠ head.checkpoint)
    (.invalidInput "invalid active head token")

/-! ### Stacks -/

/-- The source of a recorded Stack. -/
def sourceIn (operation : OperationId) : Option Id := (r.stackRows.get? operation).map StackRow.source

/-- The resolution that a stored binding names. -/
def storedBinding (bytes : Str) : Except (Error Id) (Option Id) :=
  match (storedResolution bytes : Option (Option Id)) with
  | none => throw (corrupt "invalid Stack input binding")
  | some resolution => return resolution

/-- The resolution object a committed Stack names, if any. -/
def resolutionIn (operation : OperationId) : Except (Error Id) (Option Id) :=
  match r.stackRows.get? operation with
  | none => return none
  | some row => do
      let bytes ← r.objects.readBlob row.binding
      storedBinding bytes

/-- Stores a Stack's exact input and outcome. -/
def recordIn (binding : StackBinding Id) : Except (Error Id) (Repository Id) := do
  let (id, objects) ← r.objects.insert (.blob (bindingBytes binding))
  return { r with
    objects := objects
    stackRows := r.stackRows.insert binding.operation ⟨binding.source, id⟩ }

/-- The stored binding of a Stack is the one of its input and outcome. -/
def verifyBinding (operation : OperationId) (expected : LayerHead Id) (source candidate : Id)
    (outcome : LayerUpdate Id) : Except (Error Id) Unit :=
  match r.stackRows.get? operation with
  | none => throw (.storage "Query returned no rows")
  | some row => do
      let stored ← r.objects.readBlob row.binding
      let resolution ← storedBinding stored
      refuse (stored ≠ bindingBytes ⟨operation, expected, source, candidate, outcome, resolution⟩)
        (corrupt "Stack input binding disagrees")
      match resolution with
      | none => return ()
      | some resolution => do
          let _ ← r.objects.readBlob resolution
          return ()

/-! ### Recorded attempts -/

/-- The sources that a candidate must have. -/
def attemptSources (read : Id → Except (Error Id) (LayerCheckpoint Id)) (before : List Id)
    (attempt : LayerAttempt Id) : Option Id → Except (Error Id) (List Id)
  | none => return before
  | some source => do
      refuse (attempt.discard = true) (corrupt "Stack cannot discard")
      let _ ← read source
      return sortDedup (before ++ [source])

/-- The outcome of an attempt with the event of its result. -/
def attemptUpdate (operation : OperationId) (attempt : LayerAttempt Id) (candidate : Id)
    (after : Event Id) : Except (Error Id) (LayerUpdate Id) :=
  if attempt.accepted then do
    refuse (attempt.expected + 1 ≠ attempt.result ∨ after.checkpoint ≠ candidate ∨
      after.discarded ≠ attempt.discard ∨ after.operation ≠ some operation)
      (corrupt "accepted Layer attempt disagrees with head")
    return .applied (after.state r.identity attempt.layer attempt.result)
  else do
    refuse (attempt.result ≤ attempt.expected) (corrupt "invalid stale Layer outcome")
    return .stale (after.state r.identity attempt.layer attempt.result)

/-- The recorded outcome of an operation, verified with the given reader of checkpoints. -/
def layerOutcomeWith (read : Id → Except (Error Id) (LayerCheckpoint Id)) (operation : OperationId) :
    Except (Error Id) (LayerUpdate Id) :=
  match r.layerAttempts.get? operation with
  | none => throw (.storage "Query returned no rows")
  | some attempt => do
      let before ← r.eventIn attempt.layer attempt.expected
      let after ← r.eventIn attempt.layer attempt.result
      let candidate ← read attempt.checkpoint
      let beforeCheckpoint ← read before.checkpoint
      refuse (before.discarded = true ∨ beforeCheckpoint.base ≠ candidate.base ∨
        (attempt.discard = true ∧ candidate.id ≠ before.checkpoint))
        (corrupt "invalid Layer attempt binding")
      refuse (attempt.stack ≠ (r.sourceIn operation).isSome)
        (corrupt "missing or unexpected Stack binding")
      let sources ← attemptSources read beforeCheckpoint.sources attempt (r.sourceIn operation)
      refuse (candidate.sources ≠ sources) (corrupt "Layer attempt lost or changed Stack ancestry")
      let outcome ← r.attemptUpdate operation attempt candidate.id after
      match r.sourceIn operation with
      | none => return outcome
      | some source => do
          let head ← r.layerHeadIn attempt.layer attempt.expected
          r.verifyBinding operation head source candidate.id outcome
          return outcome

/-- `attempt_outcome`: verified without walking Stack ancestry. -/
def layerOutcome (operation : OperationId) : Except (Error Id) (LayerUpdate Id) :=
  r.layerOutcomeWith r.checkpointIn operation

/-! ### The index of live paths -/

/-- A Layer's indexed changes. -/
def trackedIn (layer : LayerId) : SortedMap RepoPath (Tracked Id) :=
  (r.layerPaths.get? layer).getD SortedMap.empty

/-- Writes one entry of a new head, unless it is indexed already, and marks it as kept. -/
def upsert (head : LayerCandidate Id) (state : SortedMap RepoPath (Tracked Id) × SortedMap RepoPath (Tracked Id))
    (change : RepoPath × Option (FileEntry Id)) :
    SortedMap RepoPath (Tracked Id) × SortedMap RepoPath (Tracked Id) :=
  let rows :=
    match state.1.get? change.1 with
    | some before =>
        if before.entry = change.2 then state.2
        else state.2.insert change.1 ⟨change.2, head.id, head.provenance⟩
    | none => state.2.insert change.1 ⟨change.2, head.id, head.provenance⟩
  (state.1.erase change.1, rows)

/-- Sets the Layer's indexed changes to its new head's.  What is stale afterwards is deleted. -/
def trackIn (layer : LayerId) (head : LayerCandidate Id) : Repository Id :=
  let (stale, rows) := head.changes.entries.toList.foldl (upsert head) (r.trackedIn layer, r.trackedIn layer)
  { r with layerPaths := r.layerPaths.insert layer (stale.keys.foldl SortedMap.erase rows) }

/-- Removes a Layer that is no longer live. -/
def untrackIn (layer : LayerId) : Repository Id := { r with layerPaths := r.layerPaths.erase layer }

/-! ### New events -/

def putEvent (layer : LayerId) (revision : ℕ) (event : Event Id) : Repository Id :=
  { r with layerHeads := r.layerHeads.insert layer ((r.events layer).insert revision event) }

/-- A new Layer at a checkpoint; a retry returns the initial head. -/
def createIn (layer : LayerId) (candidate : LayerCandidate Id) :
    Except (Error Id) (LayerHead Id × Repository Id) :=
  if (r.events layer).toList ≠ [] then do
    let event ← r.eventIn layer 0
    refuse (event.checkpoint ≠ candidate.id) (.invalidInput "Layer ID reused with different snapshot")
    return (⟨r.identity, layer, 0, candidate.id⟩, r)
  else
    return (⟨r.identity, layer, 0, candidate.id⟩,
      (r.putEvent layer 0 ⟨candidate.id, false, none⟩).trackIn layer candidate)

/-- The input of an attempt: the expected head, the new head checkpoint, whether it discards the
Layer, and the source and resolution of a Stack. -/
structure Update (Id : Type) where
  expected : LayerHead Id
  candidate : LayerCandidate Id
  discard : Bool
  source : Option Id
  resolution : Option Id

/-- A recorded attempt had another input. -/
def Update.Differs (update : Update Id) (prior : LayerAttempt Id) (source : Option Id) : Prop :=
  prior.layer ≠ update.expected.layer ∨ prior.expected ≠ update.expected.revision ∨
    prior.checkpoint ≠ update.candidate.id ∨ prior.discard ≠ update.discard ∨ source ≠ update.source

instance (update : Update Id) (prior : LayerAttempt Id) (source : Option Id) :
    Decidable (update.Differs prior source) := by
  unfold Update.Differs
  infer_instance

/-- The revision an attempt results in. -/
def updateResult (revision : ℕ) (accepted : Bool) : Except (Error Id) ℕ :=
  if accepted then do
    refuse (REVISIONS ≤ revision + 1) (.invalidInput "Layer revision overflow")
    return revision + 1
  else return revision

/-- The event of an accepted attempt, and its paths. -/
def acceptUpdate (operation : OperationId) (update : Update Id) (result : ℕ) : Repository Id :=
  let r := r.putEvent update.expected.layer result ⟨update.candidate.id, update.discard, some operation⟩
  if update.discard then r.untrackIn update.expected.layer
  else r.trackIn update.expected.layer update.candidate

/-- The binding of an attempt that stacks a source. -/
def bindUpdate (operation : OperationId) (update : Update Id) (accepted : Bool) (result : ℕ) :
    Except (Error Id) (Repository Id) :=
  match update.source with
  | none => return r
  | some source => do
      let event ← r.eventIn update.expected.layer result
      let state := event.state r.identity update.expected.layer result
      let outcome := if accepted then LayerUpdate.applied state else LayerUpdate.stale state
      r.recordIn ⟨operation, update.expected, source, update.candidate.id, outcome, update.resolution⟩

/-- Answers a recorded operation, or records a new attempt. -/
def updateIn (operation : OperationId) (update : Update Id) :
    Except (Error Id) (LayerUpdate Id × Repository Id) :=
  match r.layerAttempts.get? operation with
  | some prior => do
      refuse (update.Differs prior (r.sourceIn operation)) (.operationIdReused operation)
      let resolution ← r.resolutionIn operation
      refuse (resolution ≠ update.resolution) (.operationIdReused operation)
      let outcome ← r.layerOutcome operation
      return (outcome, r)
  | none => do
      let (revision, current) ← r.latestIn update.expected.layer
      let accepted : Bool := decide (revision = update.expected.revision) && !current.discarded
      let result ← updateResult revision accepted
      let attempt : LayerAttempt Id := ⟨update.expected.layer, update.expected.revision,
        update.candidate.id, update.discard, update.source.isSome, accepted, result⟩
      let r := { r with layerAttempts := r.layerAttempts.insert operation attempt }
      let r := if accepted then r.acceptUpdate operation update result else r
      let r ← r.bindUpdate operation update accepted result
      let outcome ← r.layerOutcome operation
      return (outcome, r)

end Repository

end Javelin
