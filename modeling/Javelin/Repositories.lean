import Javelin.Control

/-! # Creating and forking repositories

The control plane makes a repository in steps: it reserves the name and the operation (`reserve`), has the node
provision the repository, for a fork copy the source, and take the initial permissions, and then marks the
record ready (`markReady`).  `createUpdate` and `forkUpdate` are the first steps of `create_repository` and
`fork_repository`. -/

namespace Javelin.Control

open KeyedList Bytes Collaboration Identity

/-- The node a control plane provisions repositories on. -/
structure NodeTarget where
  provider : Str
  url : Option Str
deriving DecidableEq

/-- The node a repository was reserved for. -/
def RepositoryRecord.target (record : RepositoryRecord) : NodeTarget := ⟨record.provider, record.nodeUrl⟩

/-- How a repository accepts changes. -/
inductive Publish where
  | direct
  | requests
deriving DecidableEq

def Publish.asStr : Publish → Str
  | .direct => text "direct"
  | .requests => text "requests"

structure CreateRequest where
  owner : Str
  name : Str
  «public» : Bool
  publish : Publish
  operation : Str
deriving DecidableEq

structure Created where
  repository : Str
  owner : Str
  name : Str
  «public» : Bool
  publish : Publish
  epoch : ℕ
  created : Bool
deriving DecidableEq

structure ForkRequest where
  source : Str
  «at» : ℕ
  target : CreateRequest
deriving DecidableEq

/-- A fork to make on the node, and the role of the forker in the source. -/
structure ForkPlan where
  source : RepositoryId
  target : RepositoryId
  «at» : ℕ
  reader : Role
deriving DecidableEq

/-- `InvalidId`. -/
def invalidId (what : String) : String := what ++ " must contain 1..128 ASCII letters, digits, '-', '_', '.' or ':'"

/-- `RepositoryId::parse`, for an ID that the document holds. -/
def parseRepository (value : Str) : Except ControlError RepositoryId :=
  if h : OpaqueId value then .ok ⟨value, h⟩ else .error (.storage (invalidId "repository ID"))

/-! ### Requests -/

def validateSlug (what : String) (value : Str) : Except ControlError Unit :=
  if value ≠ [] ∧ value.length ≤ 39 ∧ value.head? ≠ some 45 ∧
      ∀ b ∈ value, (97 ≤ b ∧ b ≤ 122) ∨ (48 ≤ b ∧ b ≤ 57) ∨ b = 45 then .ok ()
  else
    .error (.invalidInput
      (what ++ " must be 1 to 39 lowercase letters, digits or dashes, not starting with a dash"))

def validateOperation (value : Str) : Except ControlError Unit :=
  if OpaqueId value then .ok ()
  else .error (.invalidInput "operation ID must be 1 to 128 ASCII letters, digits, '-', '_', '.' or ':'")

def validateRequest (request : CreateRequest) : Except ControlError Unit := do
  validateSlug "owner" request.owner
  validateSlug "repository name" request.name
  validateOperation request.operation

variable {web : WebAuthn} {Key : Type}

/-- A record is what a request of a creator asks for. -/
def RepositoryRecord.Same (record : RepositoryRecord) (creator : Str) (request : CreateRequest)
    (fork : Option ForkOf) : Prop :=
  record.owner = request.owner ∧ record.name = request.name ∧ record.public = request.public ∧
    record.publish = request.publish.asStr ∧ record.fork = fork ∧ record.creator = creator

instance (record : RepositoryRecord) (creator : Str) (request : CreateRequest) (fork : Option ForkOf) :
    Decidable (record.Same creator request fork) := inferInstanceAs (Decidable (_ ∧ _ ∧ _ ∧ _ ∧ _ ∧ _))

/-- The record of a new repository. -/
def newRecord (creator : Str) (request : CreateRequest) (node : NodeTarget) (fork : Option ForkOf) :
    RepositoryRecord :=
  ⟨request.owner, request.name, request.public, request.publish.asStr, creator, request.operation, .provisioning, 0,
    node.provider, node.url, fork⟩

/-- Reserves a request's name and operation, or finds the record reserved first. -/
def reserve (state : State web) (creator : Str) (request : CreateRequest) (node : NodeTarget)
    (fork : Option ForkOf) (draw : Str) : Except ControlError ((Str × RepositoryRecord × Bool) × State web) :=
  match state.operations.get? request.operation with
  | some id =>
      match state.repositories.get? id with
      | none => .error (.storage "operation names a missing repository")
      | some record =>
          let elsewhere := record.phase = .provisioning ∧ (record.provider ≠ node.provider ∨ record.nodeUrl ≠ node.url)
          if ¬ record.Same creator request fork ∨ elsewhere then .error .operationReused
          else .ok ((id, record, false), state)
  | none =>
      if state.repositories.toList.any (fun e =>
          decide (e.2.owner = request.owner) && decide (e.2.name = request.name)) then .error .nameTaken
      else
        let id := secret.id (text "repo_") draw
        let record := newRecord creator request node fork
        .ok ((id, record, true), { state with
          repositories := state.repositories.insert id record
          operations := state.operations.insert request.operation id })

def creatorRoles (creator : Str) : Except ControlError (SortedMap PrincipalId Role) :=
  match PrincipalId.parse creator with
  | none => .error (.storage (invalidId "principal ID"))
  | some principal => .ok (SortedMap.empty.insert principal .maintain)

/-- The permissions a new repository starts with: its creator as Maintain, at epoch 1. -/
def initialPermissions (repository : RepositoryId) (record : RepositoryRecord) :
    Except ControlError AppliedPermissions := do
  let roles ← creatorRoles record.creator
  return ⟨repository, 1, if record.public then .«public» else .«private», roles, 0, zero_small⟩

def created (repository : Str) (record : RepositoryRecord) (inserted : Bool) : Created :=
  ⟨repository, record.owner, record.name, record.public,
    if record.publish = text "requests" then .requests else .direct, record.epoch, inserted⟩

/-- Marks a repository ready. -/
def markReady (repository : Str) (state : State web) : Except ControlError (RepositoryRecord × State web) :=
  match state.repositories.get? repository with
  | none => .error (.storage "repository vanished during create")
  | some record =>
      let ready := { record with phase := .ready, epoch := 1 }
      .ok (ready, { state with repositories := state.repositories.insert repository ready })

variable (crates : Crates Key)

/-- Who may create: a bearer with a discovery token that carries `repo:create`. -/
def admitCreate (bearer : Str) (now : UInt64) (state : State web) : Except ControlError Caller := do
  let caller ← authenticate crates state bearer now
  if caller.repo ≠ everyRepo then throw (.forbidden "create needs a sign-in token, not a repository token")
  else do
    caller.require .repoCreate "token does not carry repo:create"
    return caller

/-- The update of `create_repository`. -/
def createUpdate (target : NodeTarget) (bearer : Str) (request : CreateRequest) (now : UInt64) (draw : Str)
    (state : State web) : Except ControlError ((Str × RepositoryRecord × Bool) × State web) := do
  let caller ← admitCreate crates bearer now state
  reserve state caller.principal request target none draw

/-- Who may fork a source at a version, and the role of the forker there.  `head` is what the node reports as
the head of the source. -/
def admitFork (bearer : Str) (request : ForkRequest) (now : UInt64) (head : Except ControlError ℕ)
    (state : State web) : Except ControlError (Caller × Role) := do
  let caller ← authenticate crates state bearer now
  if caller.repo ≠ everyRepo then throw (.forbidden "fork needs a sign-in token, not a repository token")
  else do
    caller.require .repoCreate "token does not carry repo:create"
    let source ← (state.repositories.get? request.source).elim (.error (.notFound "no such repository")) .ok
    if source.phase ≠ .ready then throw (.invalidInput "the source repository is still provisioning")
    else do
      let reader ← if source.creator = caller.principal then .ok Role.maintain
        else if source.public then .ok Role.read
        else .error (.forbidden "caller has no role in this repository")
      let _ ← parseRepository request.source
      let head ← head
      if head < request.«at» then
        throw (.invalidInput ("fork point " ++ toString request.«at» ++ " is past the source's head " ++ toString head))
      else return (caller, reader)

/-- Where a fork request forks from. -/
def ForkRequest.origin (request : ForkRequest) : ForkOf := ⟨request.source, request.«at»⟩

/-- The update of `fork_repository`. -/
def forkUpdate (target : NodeTarget) (bearer : Str) (request : ForkRequest) (now : UInt64) (draw : Str)
    (head : Except ControlError ℕ) (state : State web) :
    Except ControlError ((Str × RepositoryRecord × Bool × Role) × State web) := do
  let (caller, reader) ← admitFork crates bearer request now head state
  let ((id, record, inserted), state) ←
    reserve state caller.principal request.target target (some request.origin) draw
  return ((id, record, inserted, reader), state)

/-! ### What a reservation does -/

variable {crates} {state state' : State web} {creator draw id : Str} {request : CreateRequest} {node : NodeTarget}
  {fork : Option ForkOf} {record : RepositoryRecord} {inserted : Bool}

/-- A reservation finds the record of its own request, at its own node unless it is ready, or makes one under a
new name and operation. -/
theorem of_reserve (h : reserve state creator request node fork draw = .ok ((id, record, inserted), state')) :
    (state' = state ∧ state.operations.get? request.operation = some id ∧ state.repositories.get? id = some record ∧
        record.Same creator request fork ∧ (record.phase = .provisioning → record.target = node)) ∨
      (state.operations.get? request.operation = none ∧
        (∀ id record, state.repositories.get? id = some record → record.owner = request.owner →
          record.name ≠ request.name) ∧
        id = secret.id (text "repo_") draw ∧ record = newRecord creator request node fork ∧
        state' = { state with
          repositories := state.repositories.insert id record
          operations := state.operations.insert request.operation id }) := by
  unfold reserve at h
  cases hop : state.operations.get? request.operation with
  | some id' =>
      left
      rw [hop] at h
      cases hrecord : state.repositories.get? id' with
      | none => simp [hrecord] at h
      | some record' =>
          simp only [hrecord] at h
          split at h
          · cases h
          · rename_i hallowed
            cases h
            obtain ⟨hsame, helsewhere⟩ := not_or.mp hallowed
            refine ⟨rfl, rfl, hrecord, not_not.mp hsame, fun hphase => ?_⟩
            have hnode := not_or.mp (fun hdiffers => helsewhere ⟨hphase, hdiffers⟩)
            unfold RepositoryRecord.target
            rw [not_not.mp hnode.1, not_not.mp hnode.2]
  | none =>
      right
      rw [hop] at h
      simp only at h
      split at h
      · cases h
      · rename_i htaken
        cases h
        refine ⟨rfl, fun id record hget howner hname => htaken ?_, rfl, rfl, rfl⟩
        rw [List.any_eq_true]
        exact ⟨(id, record), SortedMap.get?_eq_some.mp hget, by simp [howner, hname]⟩

end Javelin.Control
