import Javelin.HostedPublish

/-! # Review messages

A Publish Request's state is never stored: `restore` replays the accepted commands of `review_rows`.  Only
`PublishRequest` touches the World.  It publishes the checkpoint of the revision it names, in a Layer of its
own (`revisionLayer`), and then records the Publish command: two writes with a moment between them.
`settled` reads the World's publication into a request whose record was lost. -/

namespace Javelin

open KeyedList Bytes Collaboration Identity Protocol Codec

/-- `Refusal::code`. -/
def Collaboration.Refusal.code : Refusal → String
  | .repositoryMismatch => "repository_mismatch"
  | .stalePermissions _ => "stale_permissions"
  | .operationIdReused _ => "operation_id_reused"
  | .notOpen => "not_open"
  | .alreadyOpen => "already_open"
  | .noAccess => "no_access"
  | .insufficientRole _ => "insufficient_role"
  | .notAuthor => "not_author"
  | .selfApproval => "self_approval"
  | .staleRevision _ => "stale_revision"
  | .unknownRevision => "unknown_revision"
  | .revisionMismatch => "revision_mismatch"
  | .unchangedRevision => "unchanged_revision"
  | .alreadyApproved => "already_approved"
  | .notEnoughApprovals _ _ => "not_enough_approvals"

/-- The review messages. -/
inductive ReviewMessage (Id : Type) where
  | openRequest (operation : OperationId) (request : RequestId) (layer : LayerId) (checkpoint : Id)
      (base : VersionNumber)
  | revise (operation : OperationId) (request : RequestId) (expectedRevision : ℕ) (checkpoint : Id)
      (base : VersionNumber)
  | approve (operation : OperationId) (request : RequestId) (revision : ℕ)
  | comment (operation : OperationId) (request : RequestId) (revision : Option ℕ) (body : Str)
  | publishRequest (operation : OperationId) (request : RequestId) (revision : ℕ) (base : VersionNumber)
  | readRequest (request : RequestId)
deriving DecidableEq

/-- The operation that a message carries out. -/
def ReviewMessage.operation {Id : Type} : ReviewMessage Id → Option OperationId
  | .openRequest operation _ _ _ _ => some operation
  | .revise operation _ _ _ _ => some operation
  | .approve operation _ _ => some operation
  | .comment operation _ _ _ => some operation
  | .publishRequest operation _ _ _ => some operation
  | .readRequest _ => none

/-- The outcome of applying one command against the stored state. -/
inductive Decision (Id : Type) where
  | replayed (reply : Reply Id)
  | refused (code : String)
  | accepted (review : Review Id)

namespace Reviewing

open FileWorldLog

variable {Id : Type} [LinearOrder Id]

/-! ### Stored requests -/

/-- A state and its next command, replayed under the epoch it was accepted with. -/
def replayRow (review : Review Id) (row : ReviewRow Id) : Except (NodeError Id) (Review Id) :=
  if 2 ^ 63 ≤ row.epoch then .error (.protocol ⟨"storage", "negative epoch"⟩)
  else
    match review.replay row.command row.epoch with
    | .ok next => .ok next
    | .error (.refused refusal) => .error (.protocol ⟨"storage", refusal.code⟩)
    | .error .panicked => .error .panicked

/-- Rebuilds a request's state. -/
def restore (n : FileWorldLog Id) (repository : RepositoryId) (id : RequestId) :
    Except (NodeError Id) (Review Id) :=
  (n.rows.filter (fun row => decide (row.request = id))).foldlM replayRow (Review.new repository id)

/-- The row of an operation. -/
def recorded (n : FileWorldLog Id) (operation : OperationId) : Option (ReviewRow Id) :=
  n.rows.find? (fun row => decide (row.command.operation = operation))

/-- Looks up the operation first; only then does the state decide. -/
def decideCommand (permissions : AppliedPermissions) (review : Review Id) (id : RequestId)
    (command : Command Id) : NodeM Id (Decision Id) := do
  match ← look (fun n => recorded n command.operation) with
  | some row =>
      if row.request = id ∧ row.command = command then return .replayed row.reply
      else return .refused "operation_id_reused"
  | none =>
      match review.apply command permissions with
      | .ok applied => return .accepted applied.review
      | .error (.refused refusal) => return .refused refusal.code
      | .error .panicked => Durable.fail .panicked

/-- Appends one accepted command and its reply.  A new request also records its Layer. -/
def persist (id : RequestId) (command : Command Id) (epoch : ℕ) (reply : Reply Id) (layer : Option Str) :
    NodeM Id Unit :=
  Durable.transact (fun n =>
    match layer with
    | some layer =>
        if n.requests.get? id ≠ none then .error (.protocol ⟨"storage", "UNIQUE constraint failed"⟩)
        else .ok ((), { n with
          requests := n.requests.insert id layer, rows := n.rows ++ [⟨id, epoch, command, reply⟩] })
    | none => .ok ((), { n with rows := n.rows ++ [⟨id, epoch, command, reply⟩] }))

/-- Records an accepted command and answers it. -/
def settleReview (id : RequestId) (command : Command Id) (epoch : ℕ) (layer : Option Str) :
    Decision Id → NodeM Id (Reply Id)
  | .replayed reply => return reply
  | .refused code => return .refused code
  | .accepted next => do
      let reply : Reply Id := .accepted ((next.current.map Revision.index).getD 0)
      persist id command epoch reply layer
      return reply

/-- `principal`: who a grant is for. -/
def principal (grant : Grant) : Except ProtocolError PrincipalId :=
  match grant.principal with
  | none => .error ⟨"unauthorized", "a token is required"⟩
  | some name =>
      match PrincipalId.parse name with
      | none => .error ⟨"unauthorized", "token subject is not an opaque ID"⟩
      | some principal => .ok principal

/-- Authorizes a caller for an existing request and rebuilds its state. -/
def target (caller : Caller) (scope : Scope) (id : RequestId) :
    NodeM Id (Grant × AppliedPermissions × Review Id) := do
  let layer ← look (fun n => n.requests.get? id)
  let (grant, permissions) ← encoded (caller.authorize scope layer)
  if layer = none then throwNew "unknown_request" "no such Publish Request"
  else do
    let review ← Durable.read (fun n => restore n permissions.repository id)
    return (grant, permissions, review)

/-- The revision at an index, as it was submitted. -/
def pinned (review : Review Id) (index : ℕ) : Option (RevisionRef Id) :=
  (review.revisions.find? (fun revision => decide (revision.index = index))).map Revision.revision

/-! ### The World's publications -/

variable [Encoding Id] [IdBytes Id]

variable (Id) in
/-- The Layer that publishes a revision of a request. -/
def revisionLayer (id : RequestId) (index : ℕ) : LayerId :=
  ⟨REVIEW_LAYER_PREFIX ++ idText (objectId (.blob (id.text ++ slash :: decimal index) : Object Id))⟩

/-- The World's publication of a revision at a checkpoint. -/
def worldPublication (id : RequestId) (index : ℕ) (checkpoint : Id) (r : Repository Id) :
    Except (Error Id) (Option (OperationId × Codec.PublishOutcome Id)) :=
  match r.layerStateIn (revisionLayer Id id index) with
  | .ok (.published head operation version) =>
      if head.checkpoint = checkpoint then
        .ok (some (operation, .published version.number version.id version.tree))
      else .ok none
  | .ok _ => .ok none
  | .error (.invalidInput _) => .ok none
  | .error error => .error error

/-- Reads the World's publications into a request that is still open. -/
def settled (review : Review Id) (r : Repository Id) : Except (Error Id) (Review Id) :=
  match review.state, review.current with
  | .open, some current => do
      match ← worldPublication review.request current.index current.revision.checkpoint r with
      | some _ => return review.publishedByWorld
      | none => return review
  | _, _ => return review

/-- The Layer of a revision, at its checkpoint. -/
def revisionHead (layer : LayerId) (checkpoint : Id) : NodeM Id (Except String (LayerHead Id)) := do
  match ← tryNative (fun r => r.layerStateIn layer) with
  | .ok (.active head) =>
      if head.checkpoint = checkpoint then return .ok head else return .error "layer_stale"
  | .ok (.published _ _ _) => return .error "layer_published"
  | .ok (.discarded _ _ _) => return .error "layer_discarded"
  | .error (.invalidInput _) => do
      let head ← store (fun r => r.cloneLayer layer checkpoint)
      return .ok head
  | .error error => Durable.fail (.native error)

/-- Publishes the checkpoint of a revision.  A retry finds the receipt by operation. -/
def publishCheckpoint (operation : OperationId) (id : RequestId) (index : ℕ) (revision : RevisionRef Id) :
    NodeM Id (Codec.PublishOutcome Id) := do
  let layer := revisionLayer Id id index
  match ← native (fun r => r.publication operation) with
  | some receipt =>
      if receipt.expected.layer ≠ layer ∨ receipt.expected.checkpoint ≠ revision.checkpoint then
        return .refused "operation_id_reused"
      else return receipt.outcome.toWire
  | none => do
      match ← revisionHead layer revision.checkpoint with
      | .error code => return .refused code
      | .ok head => do
          let published ← publishNative ⟨operation, head, .human⟩
          answerPublish published

omit [IdBytes Id] in
/-- Reads a revision's checkpoint and its tree root; a refusal comes back as a code. -/
def revisionRef (checkpoint : Id) (base : VersionNumber) : NodeM Id (Except String (RevisionRef Id)) := do
  match ← tryNative (fun r => r.readDeep checkpoint) with
  | .error _ => return .error "missing_object"
  | .ok stored =>
      if stored.base.version ≠ base then return .error "invalid_input"
      else do
        let tree ← Checks.checkpointTree checkpoint
        return .ok ⟨base, checkpoint, tree, none⟩

/-! ### Messages -/

/-- One command of a request that must exist. -/
def command (caller : Caller) (scope : Scope) (operation : OperationId) (id : RequestId)
    (action : Review Id → NodeM Id (Except String (Action Id))) : NodeM Id (Reply Id) := do
  let (grant, permissions, stored) ← target caller scope id
  let review ← native (settled stored)
  let actor ← encoded (principal grant)
  match ← action review with
  | .error code => return .refused code
  | .ok action => do
      let decision ← decideCommand permissions review id ⟨operation, actor, action⟩
      settleReview id ⟨operation, actor, action⟩ permissions.epoch none decision

def openRequest (caller : Caller) (operation : OperationId) (id : RequestId) (layer : LayerId)
    (checkpoint : Id) (base : VersionNumber) : NodeM Id (Reply Id) := do
  let (grant, permissions) ← encoded (caller.authorize .reviewWrite (some layer.text))
  let actor ← encoded (principal grant)
  match ← tryNative (fun r => r.layerStateIn layer) with
  | .error _ => return .refused "unknown_layer"
  | .ok _ => do
      match ← revisionRef checkpoint base with
      | .error code => return .refused code
      | .ok revision => do
          let stored ← Durable.read (fun n => restore n permissions.repository id)
          let review ← native (settled stored)
          let decision ← decideCommand permissions review id ⟨operation, actor, .open revision⟩
          settleReview id ⟨operation, actor, .open revision⟩ permissions.epoch (some layer.text) decision

def revise (caller : Caller) (operation : OperationId) (id : RequestId) (expected : ℕ) (checkpoint : Id)
    (base : VersionNumber) : NodeM Id (Reply Id) :=
  command caller .reviewWrite operation id (fun _ => do
    let revision ← revisionRef checkpoint base
    return revision.map (fun revision => .revise expected revision))

/-- Approval pins the revision's content as it is at this index. -/
def approve (caller : Caller) (operation : OperationId) (id : RequestId) (index : ℕ) : NodeM Id (Reply Id) :=
  command caller .reviewApprove operation id (fun review =>
    match pinned review index with
    | none => return .error Refusal.unknownRevision.code
    | some revision => return .ok (.approve index revision))

def comment (caller : Caller) (operation : OperationId) (id : RequestId) (index : Option ℕ) (body : Str) :
    NodeM Id (Reply Id) :=
  command caller .reviewWrite operation id (fun _ =>
    match CommentBody.parse body with
    | none => return .error "invalid_input"
    | some body => return .ok (.comment index body))

/-- The checks of a Publish that is not in the World yet. -/
def publishGate (operation : OperationId) (tree : Id) (permissions : AppliedPermissions) :
    NodeM Id (Option String) := do
  match ← native (fun r => r.publication operation) with
  | some _ => return none
  | none => Checks.gateTree tree (some permissions)

/-- Publishes an accepted Publish command and records it. -/
def publishAccepted (permissions : AppliedPermissions) (id : RequestId) (command : Command Id) (index : ℕ)
    (revision : RevisionRef Id) : NodeM Id (Reply Id) := do
  match ← publishGate command.operation revision.tree permissions with
  | some code => return .publishOutcome (.refused code)
  | none => do
      match ← publishCheckpoint command.operation id index revision with
      | .published number version tree => do
          persist id command permissions.epoch (.publishOutcome (.published number version tree)) none
          return .publishOutcome (.published number version tree)
      | outcome => return .publishOutcome outcome

def publishRequest (caller : Caller) (operation : OperationId) (id : RequestId) (index : ℕ)
    (base : VersionNumber) : NodeM Id (Reply Id) := do
  let (grant, permissions, review) ← target caller .publish id
  let actor ← encoded (principal grant)
  match pinned review index with
  | none => return .publishOutcome (.refused Refusal.unknownRevision.code)
  | some revision =>
      if revision.base ≠ base then return .publishOutcome (.refused "invalid_input")
      else do
        match ← decideCommand permissions review id ⟨operation, actor, .publish index revision⟩ with
        | .replayed reply => return reply
        | .refused code => return .publishOutcome (.refused code)
        | .accepted _ => publishAccepted permissions id ⟨operation, actor, .publish index revision⟩ index revision

def readRequest (caller : Caller) (id : RequestId) : NodeM Id (Reply Id) := do
  let layer ← look (fun n => n.requests.get? id)
  let (_, permissions) ← encoded (caller.authorize .read layer)
  if layer = none then throwNew "unknown_request" "no such Publish Request"
  else do
    let stored ← Durable.read (fun n => restore n permissions.repository id)
    let review ← native (settled stored)
    return .requestState id review.state ((review.current.map Revision.index).getD 0)

/-- Answers one review message. -/
def handle (caller : Caller) : ReviewMessage Id → NodeM Id (Reply Id)
  | .openRequest operation request layer checkpoint base =>
      openRequest caller operation request layer checkpoint base
  | .revise operation request expected checkpoint base =>
      revise caller operation request expected checkpoint base
  | .approve operation request revision => approve caller operation request revision
  | .comment operation request revision body => comment caller operation request revision body
  | .publishRequest operation request revision base => publishRequest caller operation request revision base
  | .readRequest request => readRequest caller request

end Reviewing

end Javelin
