import Javelin.Tables
import Javelin.Trails

/-! # Publish Requests

The deterministic state of one Publish Request.  `Review.apply` takes one command under the permissions
of the moment: an identical retry leaves the state as it is, a new command is checked against the
permissions (`Review.check`) and then changes the state (`Review.transition`).  `Review.run` applies
commands one after another, each with its own permissions; a refused one changes nothing.

Indexes and epochs are natural numbers here.  A request with more revisions than a `u32` can count
panics. -/

namespace Javelin.Collaboration

open KeyedList

/-! ### Identifiers -/

/-- The bytes of an opaque ID: ASCII letters, digits, `-`, `_`, `.` or `:`. -/
def opaqueByte (b : UInt8) : Bool :=
  (48 ≤ b && b ≤ 57) || (65 ≤ b && b ≤ 90) || (97 ≤ b && b ≤ 122) || b = 45 || b = 95 || b = 46 || b = 58

/-- An opaque ID has 1 to 128 of these bytes. -/
def OpaqueId (value : Str) : Prop := value ≠ [] ∧ value.length ≤ 128 ∧ ∀ b ∈ value, opaqueByte b = true

instance (value : Str) : Decidable (OpaqueId value) := inferInstanceAs (Decidable (_ ∧ _ ∧ _))

structure PrincipalId where
  text : Str
  valid : OpaqueId text
deriving DecidableEq

structure RepositoryId where
  text : Str
  valid : OpaqueId text
deriving DecidableEq

structure RequestId where
  text : Str
  valid : OpaqueId text
deriving DecidableEq

theorem opaqueId_r : OpaqueId [114] := by decide

/-- `PrincipalId::parse`. -/
def PrincipalId.parse (value : Str) : Option PrincipalId := if h : OpaqueId value then some ⟨value, h⟩ else none

instance : LinearOrder PrincipalId :=
  LinearOrder.lift' PrincipalId.text (fun a b h => by cases a; cases b; cases h; rfl)

instance : LinearOrder RequestId :=
  LinearOrder.lift' RequestId.text (fun a b h => by cases a; cases b; cases h; rfl)

/-- The longest comment, in bytes. -/
def MAX_BYTES : ℕ := 65536

structure CommentBody where
  text : Str
  valid : text ≠ [] ∧ text.length ≤ MAX_BYTES
deriving DecidableEq

/-- `CommentBody::parse`. -/
def CommentBody.parse (value : Str) : Option CommentBody :=
  if h : value ≠ [] ∧ value.length ≤ MAX_BYTES then some ⟨value, h⟩ else none

/-- A proposal: the base version, the checkpoint, the tree it composes to, and a context. -/
structure RevisionRef (Id : Type) where
  base : VersionNumber
  checkpoint : Id
  tree : Id
  context : Option Id
deriving DecidableEq

/-! ### Permissions -/

/-- Each role includes the abilities of the ones before it. -/
inductive Role where
  | read
  | review
  | maintain
deriving DecidableEq

def Role.rank : Role → ℕ
  | .read => 0
  | .review => 1
  | .maintain => 2

instance : LinearOrder Role := LinearOrder.lift' Role.rank (fun a b h => by cases a <;> cases b <;> first | rfl | cases h)

inductive Visibility where
  | «public»
  | «private»
deriving DecidableEq

theorem zero_small : 0 < 2 ^ 32 := by decide

/-- The permissions and the policy that apply to a repository. -/
structure AppliedPermissions where
  repository : RepositoryId
  epoch : ℕ
  visibility : Visibility
  roles : SortedMap PrincipalId Role
  requiredApprovals : ℕ
  small : requiredApprovals < 2 ^ 32
deriving DecidableEq

namespace AppliedPermissions
variable (permissions : AppliedPermissions)

/-- The role of a principal.  A public repository gives everyone `read`. -/
def role (principal : PrincipalId) : Option Role :=
  match permissions.visibility with
  | .«public» => (permissions.roles.get? principal).or (some .read)
  | .«private» => permissions.roles.get? principal

def has (principal : PrincipalId) (role : Role) : Bool := (permissions.role principal).any (fun r => decide (role ≤ r))

end AppliedPermissions

/-! ### Commands and state -/

variable {Id : Type}

inductive Action (Id : Type) where
  | open (revision : RevisionRef Id)
  | revise (expected : ℕ) (revision : RevisionRef Id)
  | approve (index : ℕ) (revision : RevisionRef Id)
  | comment (index : Option ℕ) (body : CommentBody)
  | publish (index : ℕ) (revision : RevisionRef Id)
  | close (index : ℕ)
deriving DecidableEq

structure Command (Id : Type) where
  operation : OperationId
  actor : PrincipalId
  action : Action Id
deriving DecidableEq

inductive Refusal where
  | repositoryMismatch
  | stalePermissions (seen : ℕ)
  | operationIdReused (operation : OperationId)
  | notOpen
  | alreadyOpen
  | noAccess
  | insufficientRole (required : Role)
  | notAuthor
  | selfApproval
  | staleRevision (current : ℕ)
  | unknownRevision
  | revisionMismatch
  | unchangedRevision
  | alreadyApproved
  | notEnoughApprovals (required current : ℕ)
deriving DecidableEq

/-- Why a command was not accepted. -/
inductive Failure where
  | refused (refusal : Refusal)
  | panicked
deriving DecidableEq

/-- A submitted revision and who approved it. -/
structure Revision (Id : Type) where
  index : ℕ
  revision : RevisionRef Id
  approvals : List PrincipalId
deriving DecidableEq

structure Comment where
  author : PrincipalId
  index : Option ℕ
  body : CommentBody
deriving DecidableEq

inductive RequestState where
  | open
  | published
  | closed
deriving DecidableEq

structure Review (Id : Type) where
  repository : RepositoryId
  request : RequestId
  author : Option PrincipalId
  state : RequestState
  epoch : ℕ
  revisions : List (Revision Id)
  comments : List Comment
  history : List (Command Id)
deriving DecidableEq

structure Applied (Id : Type) where
  review : Review Id
  replayed : Bool

structure Publishable where
  index : ℕ
  approvals : List PrincipalId

def refuse {α : Type} (refusal : Refusal) : Except Failure α := .error (.refused refusal)

namespace Review
variable (r : Review Id)

def new (repository : RepositoryId) (request : RequestId) : Review Id :=
  ⟨repository, request, none, .open, 0, [], [], []⟩

/-- The last revision. -/
def current : Option (Revision Id) := r.revisions.getLast?

/-- The current revision of an open request. -/
def openRevision : Except Failure (Revision Id) :=
  match r.state, r.current with
  | .open, some current => .ok current
  | _, _ => refuse .notOpen

def pushRevision (revision : RevisionRef Id) : Except Failure (Review Id) :=
  if r.revisions.length + 1 < 2 ^ 32 then
    .ok { r with revisions := r.revisions ++ [⟨r.revisions.length + 1, revision, []⟩] }
  else .error .panicked

/-- `last_mut`: the last revision with an approval added. -/
def approveLast (actor : PrincipalId) : Review Id :=
  match r.current with
  | none => r
  | some current =>
      { r with revisions := r.revisions.dropLast ++ [{ current with approvals := current.approvals ++ [actor] }] }

def checkPermissions (permissions : AppliedPermissions) : Except Failure Unit :=
  if permissions.repository ≠ r.repository then refuse .repositoryMismatch
  else if permissions.epoch < r.epoch then refuse (.stalePermissions r.epoch)
  else .ok ()

variable [DecidableEq Id]

/-- `check_publishable`: whether a principal may publish a revision now. -/
def checkPublishable (index : ℕ) (exact : RevisionRef Id) (permissions : AppliedPermissions)
    (publisher : PrincipalId) : Except Failure Publishable := do
  r.checkPermissions permissions
  if permissions.role publisher = none then refuse .noAccess
  else if permissions.has publisher .maintain = false then refuse (.insufficientRole .maintain)
  else do
    let current ← r.openRevision
    if index ≠ current.index then refuse (.staleRevision current.index)
    else if current.revision ≠ exact then refuse .revisionMismatch
    else
      let approvals := current.approvals.filter (fun p => decide (r.author ≠ some p) && permissions.has p .review)
      let count := min approvals.length (2 ^ 32 - 1)
      if count < permissions.requiredApprovals then
        refuse (.notEnoughApprovals permissions.requiredApprovals count)
      else .ok ⟨current.index, approvals⟩

/-- What depends on the grants of the moment. -/
def check (command : Command Id) (permissions : AppliedPermissions) : Except Failure Unit := do
  r.checkPermissions permissions
  if permissions.role command.actor = none then refuse .noAccess
  else
    match command.action with
    | .approve _ _ =>
        if permissions.has command.actor .review = false then refuse (.insufficientRole .review) else .ok ()
    | .close _ =>
        if r.author ≠ some command.actor ∧ permissions.has command.actor .maintain = false then
          refuse (.insufficientRole .maintain)
        else .ok ()
    | .publish index revision => do
        let _ ← r.checkPublishable index revision permissions command.actor
        .ok ()
    | _ => .ok ()

/-- The state an action leads to.  Only what the state records is consulted. -/
def act (actor : PrincipalId) : Action Id → Except Failure (Review Id)
  | .open revision =>
      if r.author.isSome then refuse .alreadyOpen
      else { r with author := some actor }.pushRevision revision
  | .revise expected revision => do
      let current ← r.openRevision
      if r.author ≠ some actor then refuse .notAuthor
      else if expected ≠ current.index then refuse (.staleRevision current.index)
      else if current.revision = revision then refuse .unchangedRevision
      else r.pushRevision revision
  | .approve index revision => do
      let current ← r.openRevision
      if r.author = some actor then refuse .selfApproval
      else if index ≠ current.index then refuse (.staleRevision current.index)
      else if current.revision ≠ revision then refuse .revisionMismatch
      else if actor ∈ current.approvals then refuse .alreadyApproved
      else .ok (r.approveLast actor)
  | .comment index body => do
      let _ ← r.openRevision
      if index.any (fun n => decide (n = 0) || decide (r.revisions.length < n)) then refuse .unknownRevision
      else .ok { r with comments := r.comments ++ [⟨actor, index, body⟩] }
  | .publish _ _ => do
      let _ ← r.openRevision
      .ok { r with state := .published }
  | .close index => do
      let current ← r.openRevision
      if index ≠ current.index then refuse (.staleRevision current.index)
      else .ok { r with state := .closed }

def transition (command : Command Id) (epoch : ℕ) : Except Failure (Review Id) := do
  let next ← r.act command.actor command.action
  .ok { next with epoch := epoch, history := next.history ++ [command] }

/-- Applies one command under the given permissions. -/
def apply (command : Command Id) (permissions : AppliedPermissions) : Except Failure (Applied Id) :=
  if permissions.repository ≠ r.repository then refuse .repositoryMismatch
  else
    match r.history.find? (fun c => decide (c.operation = command.operation)) with
    | some prior =>
        if prior = command then .ok ⟨r, true⟩ else refuse (.operationIdReused command.operation)
    | none => do
        r.check command permissions
        let review ← r.transition command permissions.epoch
        .ok ⟨review, false⟩

/-- `replay`: an accepted command again, without the grants. -/
def replay (command : Command Id) (epoch : ℕ) : Except Failure (Review Id) := r.transition command epoch

/-- `published_by_world`. -/
def publishedByWorld : Review Id := { r with state := .published }

/-! ### Runs -/

/-- One command; a refused one changes nothing. -/
def after (attempt : Command Id × AppliedPermissions) : Review Id :=
  match r.apply attempt.1 attempt.2 with
  | .ok applied => applied.review
  | .error _ => r

/-- Commands one after another, each with its own permissions. -/
def run (log : List (Command Id × AppliedPermissions)) : Review Id :=
  Trail.after (fun r attempt => r.after attempt) r log

end Review

end Javelin.Collaboration
