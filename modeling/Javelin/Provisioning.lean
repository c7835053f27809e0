import Javelin.OneShot
import Javelin.Repositories

/-! # Provisioning, step by step

Several control planes share one state directory and provision on nodes.  A call of `create_repository` or
`fork_repository` reserves its repository in one update of the document, and is then in flight (`Pending`): its
node calls and the update that marks the repository ready are steps of their own, between which other calls
make theirs, and after any of which it may stop.  A node call has its effect and is answered, or the answer is
lost, or it does not arrive.

`Site.step` is one step. -/

namespace Javelin.Control

open KeyedList Bytes Collaboration Identity

/-- Where a fork came from, as its node recorded it. -/
structure Origin (Id : Type) where
  source : Str
  number : ℕ
  version : Id

/-- A finished fork. -/
structure Forked (Id : Type) where
  origin : Origin Id
  omitted : List Id

/-! ### Nodes -/

/-- What a node holds: the repositories it has made, the forks it has copied, and the permissions applied. -/
structure Node where
  provisioned : SortedSet Str
  copied : SortedMap Str ForkPlan
  permissions : SortedMap Str AppliedPermissions

def Node.empty : Node := ⟨∅, ∅, ∅⟩

/-- A call of a control plane to a node. -/
inductive NodeCall where
  | provision (repository : RepositoryId)
  | fork (plan : ForkPlan)
  | apply (permissions : AppliedPermissions)
deriving DecidableEq

/-- The repository a node call is for. -/
def NodeCall.repository : NodeCall → RepositoryId
  | .provision repository => repository
  | .fork plan => plan.target
  | .apply permissions => permissions.repository

/-- The effect of a node call.  Making it again changes nothing, and applied permissions are accepted again only
if they are identical. -/
def Node.perform (node : Node) : NodeCall → Except ControlError Node
  | .provision repository => .ok { node with provisioned := node.provisioned.add repository.text }
  | .fork plan =>
      if (node.copied.get? plan.target.text).isSome then .ok node
      else .ok { node with copied := node.copied.insert plan.target.text plan }
  | .apply permissions =>
      match node.permissions.get? permissions.repository.text with
      | none =>
          .ok { node with permissions := node.permissions.insert permissions.repository.text permissions }
      | some current =>
          if permissions.epoch < current.epoch then
            .error (.refused "stale_permissions" ("epoch " ++ toString current.epoch ++ " was already applied"))
          else if permissions.epoch = current.epoch then
            if current = permissions then .ok node
            else .error (.refused "stale_permissions" ("epoch " ++ toString current.epoch ++ " was already applied"))
          else .ok { node with permissions := node.permissions.insert permissions.repository.text permissions }

/-- How a node call ends: answered, carried out without an answer, or lost on the way. -/
inductive Outcome (Id : Type) where
  | answered (forked : Forked Id)
  | unanswered (error : ControlError)
  | lost (error : ControlError)

/-! ### Calls in flight -/

/-- What a call does next. -/
inductive Stage where
  | provision
  | fork
  | apply
  | mark
deriving DecidableEq

/-- A call after its reservation: the plane's target, the repository and its record as they were reserved, and
for a fork its plan and the node's answer. -/
structure Pending (Id : Type) where
  target : NodeTarget
  repository : RepositoryId
  record : RepositoryRecord
  inserted : Bool
  plan : Option ForkPlan
  forked : Option (Forked Id)
  stage : Stage

/-- What a call gives back. -/
abbrev Returned (Id : Type) := Except ControlError (Created × Option (Forked Id))

variable {web : WebAuthn} {Key Id : Type}

/-- The node call a call makes next. -/
def Pending.call (p : Pending Id) : Except ControlError (Option NodeCall) :=
  match p.stage with
  | .provision => .ok (some (.provision p.repository))
  | .fork => .ok (p.plan.map .fork)
  | .apply => do
      let permissions ← initialPermissions p.repository p.record
      return some (.apply permissions)
  | .mark => .ok none

/-- How a call goes on when its node call is answered.  A fork that is ready has no more to do. -/
def Pending.next (p : Pending Id) (forked : Forked Id) : Returned Id ⊕ Pending Id :=
  match p.stage with
  | .provision => .inr { p with stage := if p.plan.isSome then .fork else .apply }
  | .fork =>
      if p.record.phase = .ready then .inl (.ok (created p.repository.text p.record p.inserted, some forked))
      else .inr { p with forked := some forked, stage := .apply }
  | .apply => .inr { p with stage := .mark }
  | .mark => .inr p

structure Site (web : WebAuthn) (Id : Type) where
  doc : State web
  nodes : NodeTarget → Node
  calls : List (Pending Id)
  sent : List (NodeTarget × NodeCall)
  returned : List (Returned Id)

/-- Before any call. -/
def Site.initial : Site web Id := ⟨State.initial, fun _ => Node.empty, [], [], []⟩

/-- What happens next: a sign-in call, a create or a fork that starts, a node call or a mark of a call in flight,
or a call in flight that stops. -/
inductive Event (web : WebAuthn) (Id : Type) where
  | signIn (x : Input web)
  | create (target : NodeTarget) (bearer : Str) (request : CreateRequest) (now : UInt64) (draw : Str) (fault : Fault)
  | fork (target : NodeTarget) (bearer : Str) (request : ForkRequest) (now : UInt64) (draw : Str) (fault : Fault)
      (head : Except ControlError ℕ)
  | node (i : ℕ) (outcome : Outcome Id)
  | mark (i : ℕ) (fault : Fault)
  | stop (i : ℕ)

namespace Site
variable (crates : Crates Key) (s : Site web Id)

def give (answer : Returned Id) : Site web Id := { s with returned := answer :: s.returned }

/-- A create after its update. -/
def createReserved (target : NodeTarget) (result : Except ControlError (Str × RepositoryRecord × Bool)) : Site web Id :=
  match result with
  | .error e => s.give (.error e)
  | .ok (id, record, inserted) =>
      match parseRepository id with
      | .error e => s.give (.error e)
      | .ok repository =>
          if record.phase = .ready then s.give (.ok (created id record inserted, none))
          else { s with calls := s.calls ++ [⟨target, repository, record, inserted, none, none, .provision⟩] }

/-- A fork after its update. -/
def forkReserved (target : NodeTarget) (request : ForkRequest)
    (result : Except ControlError (Str × RepositoryRecord × Bool × Role)) : Site web Id :=
  match result with
  | .error e => s.give (.error e)
  | .ok (id, record, inserted, reader) =>
      match parseRepository id, parseRepository request.source with
      | .error e, _ => s.give (.error e)
      | .ok _, .error e => s.give (.error e)
      | .ok repository, .ok source =>
          { s with calls := s.calls ++ [⟨target, repository, record, inserted,
            some ⟨source, repository, request.«at», reader⟩, none, .provision⟩] }

/-- A call in flight is done. -/
def finish (i : ℕ) (answer : Returned Id) : Site web Id :=
  { s with calls := s.calls.eraseIdx i, returned := answer :: s.returned }

/-- The node call of a call in flight. -/
def nodeStep (i : ℕ) (p : Pending Id) (outcome : Outcome Id) : Site web Id :=
  match p.call with
  | .error e => s.finish i (.error e)
  | .ok none => s
  | .ok (some call) =>
      let s := { s with sent := (p.target, call) :: s.sent }
      match outcome with
      | .lost e => s.finish i (.error e)
      | .answered forked =>
          match (s.nodes p.target).perform call with
          | .error e => s.finish i (.error e)
          | .ok node =>
              let s := { s with nodes := Function.update s.nodes p.target node }
              match p.next forked with
              | .inl answer => s.finish i answer
              | .inr next => { s with calls := s.calls.set i next }
      | .unanswered e =>
          match (s.nodes p.target).perform call with
          | .error _ => s.finish i (.error e)
          | .ok node => { s with nodes := Function.update s.nodes p.target node }.finish i (.error e)

/-- The last update of a call in flight. -/
def markStep (i : ℕ) (p : Pending Id) (fault : Fault) : Site web Id :=
  let result := Store.update fault (markReady p.repository.text) s.doc
  { s with doc := result.2 }.finish i
    (result.1.map (fun ready => (created p.repository.text ready p.inserted, p.forked)))

def step (x : Event web Id) : Site web Id :=
  match x with
  | .signIn x => { s with doc := after crates s.doc x }
  | .create target bearer request now draw fault =>
      match validateRequest request with
      | .error e => s.give (.error e)
      | .ok _ =>
          let result := Store.update fault (createUpdate crates target bearer request now draw) s.doc
          { s with doc := result.2 }.createReserved target result.1
  | .fork target bearer request now draw fault head =>
      match validateRequest request.target with
      | .error e => s.give (.error e)
      | .ok _ =>
          let result := Store.update fault (forkUpdate crates target bearer request now draw head) s.doc
          { s with doc := result.2 }.forkReserved target request result.1
  | .node i outcome =>
      match s.calls[i]? with
      | none => s
      | some p => s.nodeStep i p outcome
  | .mark i fault =>
      match s.calls[i]? with
      | none => s
      | some p => if p.stage = .mark then s.markStep i p fault else s
  | .stop i => { s with calls := s.calls.eraseIdx i }

end Site

/-- The site after events one after another. -/
def siteAfter (crates : Crates Key) (l : List (Event web Id)) : Site web Id :=
  Trail.after (Site.step crates) Site.initial l

end Javelin.Control
