import Javelin.Checks
import Javelin.Receipts

/-! # Hosted publication

`FileWorldLog.publish` answers a `PublishLayer`: a recorded decision is answered again, an unrecorded
receipt of the repository is recorded, and a new operation is decided (`decidePublish`) and recorded.
The repository's transaction and the record are two writes. -/

namespace Javelin

open KeyedList Collaboration Identity Protocol Codec

variable {Id : Type}

/-- Maps the repository's outcome to the wire. -/
def PublishOutcome.toWire : PublishOutcome Id → Codec.PublishOutcome Id
  | .published version => .published version.number version.id version.tree
  | .conflict paths => .conflict paths
  | .layerStale (.active head) => .layerStale head.checkpoint
  | .layerStale (.published _ _ _) => .refused "layer_published"
  | .layerStale (.discarded _ _ _) => .refused "layer_discarded"

namespace FileWorldLog

variable [LinearOrder Id] [Encoding Id]

/-- The codes of native errors that decide a request. -/
def REFUSALS : List String :=
  ["operation_id_reused", "missing_agent_trace", "layer_published", "missing_object", "invalid_input"]

/-- `base_of`. -/
def baseOf (head : LayerHead Id) (r : Repository Id) : Except (Error Id) VersionNumber := do
  let checkpoint ← r.readDeep head.checkpoint
  return checkpoint.base.version

/-- Whether a receipt answers a request. -/
def receiptMatches (receipt : PublicationReceipt Id) (request : PublishLayer Id) (r : Repository Id) :
    Except (Error Id) Bool :=
  if receipt.expected.layer = request.layer ∧ receipt.expected.checkpoint = request.expected ∧
      receipt.attribution = request.attribution then do
    let base ← baseOf receipt.expected r
    return decide (base = request.base)
  else return false

/-- `publish_layer` of the repository.  Nothing else writes meanwhile, so that one round is enough. -/
def publishNative (call : PublishCall Id) : NodeM Id (Except (Error Id) (PublicationReceipt Id)) :=
  tryStore (fun r => r.publishLayer call allow 1)

/-- The answer to what the repository published. -/
def answerPublish : Except (Error Id) (PublicationReceipt Id) → NodeM Id (Codec.PublishOutcome Id)
  | .ok receipt => return receipt.outcome.toWire
  | .error error =>
      if error.code ∈ REFUSALS then return .refused error.code else Durable.fail (.native error)

/-- `decide`: decides an undecided operation against the Layer as it is now. -/
def decidePublish (request : PublishLayer Id) : NodeM Id (Codec.PublishOutcome Id) := do
  match ← tryNative (fun r => r.layerStateIn request.layer) with
  | .error (.invalidInput _) => return .refused "unknown_layer"
  | .error error => Durable.fail (.native error)
  | .ok (.active head) =>
      if head.checkpoint ≠ request.expected then return .layerStale head.checkpoint
      else do
        let base ← native (baseOf head)
        if base ≠ request.base then return .refused "invalid_input"
        else do
          match ← Checks.gate head.checkpoint none with
          | some code => return .refused code
          | none => do
              let published ← publishNative ⟨request.operation, head, request.attribution⟩
              answerPublish published
  | .ok (.published _ _ _) => return .refused "layer_published"
  | .ok (.discarded _ _ _) => return .refused "layer_discarded"

/-- Records a decision. -/
def record (request : PublishLayer Id) (outcome : Codec.PublishOutcome Id) : NodeM Id Unit := do
  let _ ← encoded outcome.encode
  update (fun n => { n with decided := n.decided.insert request.operation (request, outcome) })

/-- Records a decision and answers with it. -/
def settle (request : PublishLayer Id) (outcome : Codec.PublishOutcome Id) :
    NodeM Id (Codec.PublishOutcome Id) := do
  record request outcome
  return outcome

/-- One `PublishLayer`. -/
def publish (request : PublishLayer Id) : NodeM Id (Codec.PublishOutcome Id) := do
  let _ ← encoded request.encode
  match ← look (fun n => n.decided.get? request.operation) with
  | some (recorded, outcome) =>
      if recorded = request then return outcome else return .refused "operation_id_reused"
  | none => do
      match ← native (fun r => r.publication request.operation) with
      | some receipt => do
          if ← native (receiptMatches receipt request) then settle request receipt.outcome.toWire
          else return .refused "operation_id_reused"
      | none => do
          let outcome ← decidePublish request
          settle request outcome

/-- `publish_layer`: a revision under review publishes only through its review. -/
def publishLayer (request : PublishLayer Id) : NodeM Id (Codec.PublishOutcome Id) :=
  if isReviewLayer request.layer = true then return .refused "layer_reserved" else publish request

end FileWorldLog

end Javelin
