import Javelin.Objects

/-! # The repository's tables

The rows of the database and the records the operations return.  A table is a map from its primary
key; `versions` is kept in the order of its rows, and a two-part key is a map of maps.  Stored
texts that only encode an ID, a path or a number are kept decoded.

The constraints of the schema restate what the operations guarantee before they write: keys are
new, references exist, numbers have no gap.  They are theorems here, not checks.

A transaction is a function from `Repository` to the result and the next `Repository`, or to an
error, which leaves the repository as it was. -/

namespace Javelin

open KeyedList

instance : LinearOrder OperationId :=
  LinearOrder.lift' OperationId.text (fun a b h => by cases a; cases b; cases h; rfl)

instance : LinearOrder LayerId :=
  LinearOrder.lift' LayerId.text (fun a b h => by cases a; cases b; cases h; rfl)

/-! ### World versions and attempts -/

/-- One World version.  `tree` is the root of its snapshot tree, `id` its hash-chain identity. -/
structure WorldVersion (Id : Type) where
  number : VersionNumber
  id : Id
  tree : Id
  operation : Option OperationId
deriving DecidableEq

inductive AdvanceOutcome (Id : Type) where
  | accepted (version : WorldVersion Id)
  | stale (actual : VersionNumber)
deriving DecidableEq

/-- A recorded attempt to advance the World.  Publications leave `tree` empty. -/
structure Attempt (Id : Type) where
  expected : VersionNumber
  tree : Option Id
  accepted : Bool
  result : VersionNumber
deriving DecidableEq

/-! ### Layers -/

structure LayerHead (Id : Type) where
  repository : Id
  layer : LayerId
  revision : ℕ
  checkpoint : Id
deriving DecidableEq

inductive LayerState (Id : Type) where
  | active (head : LayerHead Id)
  | published (head : LayerHead Id) (operation : OperationId) (version : WorldVersion Id)
  | discarded (layer : LayerId) (revision : ℕ) (checkpoint : Id)
deriving DecidableEq

inductive LayerUpdate (Id : Type) where
  | applied (state : LayerState Id)
  | stale (state : LayerState Id)
deriving DecidableEq

/-- A row of `layer_heads` under its Layer and revision. -/
structure Event (Id : Type) where
  checkpoint : Id
  discarded : Bool
  operation : Option OperationId
deriving DecidableEq

/-- A row of `layer_attempts`. -/
structure LayerAttempt (Id : Type) where
  layer : LayerId
  expected : ℕ
  checkpoint : Id
  discard : Bool
  stack : Bool
  accepted : Bool
  result : ℕ
deriving DecidableEq

/-- A row of `stacks`. -/
structure StackRow (Id : Type) where
  source : Id
  binding : Id
deriving DecidableEq

/-- A row of `layer_paths`: the entry, and the checkpoint and provenance that last set it. -/
structure Tracked (Id : Type) where
  entry : Option (FileEntry Id)
  checkpoint : Id
  provenance : Option Id
deriving DecidableEq

/-- A row of `blame`. -/
structure BlameRow (Id : Type) where
  checkpoint : Id
  provenance : Option Id
deriving DecidableEq

/-! ### Publications -/

/-- Caller-declared attribution.  `allowMissingTrace` is valid only without a context. -/
inductive PublishAttribution (Id : Type) where
  | human
  | agent (context : Option Id) (allowMissingTrace : Bool)
deriving DecidableEq

inductive PublishWarning where
  | missingAgentTrace
deriving DecidableEq

inductive PublishOutcome (Id : Type) where
  | published (version : WorldVersion Id)
  | conflict (paths : List RepoPath)
  | layerStale (actual : LayerState Id)
deriving DecidableEq

/-- The exact original input and durable result. -/
structure PublicationReceipt (Id : Type) where
  operation : OperationId
  expected : LayerHead Id
  attribution : PublishAttribution Id
  against : WorldVersion Id
  warnings : List PublishWarning
  outcome : PublishOutcome Id
deriving DecidableEq

/-- The `outcome` column of a publication. -/
inductive PublicationTag where
  | published
  | conflict
  | layerStale
deriving DecidableEq

/-- A row of `publications`. -/
structure PublicationRow (Id : Type) where
  layer : LayerId
  expected : ℕ
  checkpoint : Id
  against : VersionNumber
  observed : ℕ
  observedPublication : Option OperationId
  attribution : PublishAttribution Id
  outcome : PublicationTag
  result : Option VersionNumber
  worldOperation : Option OperationId
  receipt : Id
deriving DecidableEq

/-! ### Records stored as blobs -/

inductive Actor where
  | human
  | agent
deriving DecidableEq

/-- Who and what produced a checkpoint, as declared by the harness. -/
structure Provenance where
  actor : Actor
  agent : Option String
  session : Option String
  reference : Option String
deriving DecidableEq

/-- The exact input and outcome of a Stack. -/
structure StackBinding (Id : Type) where
  operation : OperationId
  expected : LayerHead Id
  source : Id
  candidate : Id
  outcome : LayerUpdate Id
  resolution : Option Id
deriving DecidableEq

/-! ### The database -/

/-- A repository's database. -/
structure Repository (Id : Type) where
  identity : Id
  objects : Objects Id
  versions : List (WorldVersion Id)
  changes : SortedMap VersionNumber (SortedMap RepoPath (Option (FileEntry Id)))
  attempts : SortedMap OperationId (Attempt Id)
  layerHeads : SortedMap LayerId (SortedMap ℕ (Event Id))
  layerAttempts : SortedMap OperationId (LayerAttempt Id)
  stackRows : SortedMap OperationId (StackRow Id)
  publications : SortedMap OperationId (PublicationRow Id)
  layerPaths : SortedMap LayerId (SortedMap RepoPath (Tracked Id))
  blame : SortedMap VersionNumber (SortedMap RepoPath (BlameRow Id))

/-- A check that refuses with `e` when `p` holds. -/
def refuse {Id : Type} (p : Prop) [Decidable p] (e : Error Id) : Except (Error Id) Unit :=
  if p then .error e else .ok ()

@[simp] theorem refuse_eq_ok {Id : Type} {p : Prop} [Decidable p] {e : Error Id} {u : Unit} :
    refuse p e = .ok u ↔ ¬ p := by
  unfold refuse
  by_cases h : p <;> simp [h]

def corrupt {Id : Type} (text : String) : Error Id := .corruptRepository text

end Javelin
