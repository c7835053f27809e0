import Javelin.Imports
import Javelin.Workspaces
import Javelin.WorldLogs

/-! # Checks

A reporter's token stores results of checks for trees (`report`), and the policy names the checks that a
Publish requires (`setRequired`).  `unmet` is the first requirement that the latest result for a tree does
not meet; `gate` asks it for the tree of a checkpoint, `gateTree` for a tree at hand. -/

namespace Javelin

open KeyedList Bytes Collaboration Identity Protocol Codec

namespace Checks

/-- Check names whose first segment only the node may write. -/
def RESERVED : List Str := [text "approval", text "publish"]
/-- Longest check name, in bytes. -/
def MAX_NAME : ℕ := 255

/-- The bytes of a segment of a check name; `(` and `)` only after the first one. -/
def nameByte (first : Bool) (b : UInt8) : Bool :=
  (97 ≤ b && b ≤ 122) || (48 ≤ b && b ≤ 57) || b = 95 || b = 46 || b = 45 || (!first && (b = 40 || b = 41))

/-- `^[a-z0-9_.-]+(/[a-z0-9_.()-]+)*$`, at most `MAX_NAME` bytes. -/
def validName (name : Str) : Bool :=
  decide (name.length ≤ MAX_NAME) && (name.splitOn slash).zipIdx.all (fun segment =>
    decide (segment.1 ≠ []) && segment.1.all (nameByte (decide (segment.2 = 0))))

/-- Whether the node alone may write `name`. -/
def isReserved (name : Str) : Bool := decide ((name.splitOn slash).headD [] ∈ RESERVED)

/-- The byte `*`. -/
def star : UInt8 := 42

/-- The loop of `glob`, at most so many rounds: `back` is the last star, `resume` where its run ends. -/
def globFrom (pattern name : Str) : ℕ → (p n : ℕ) → (back : Option ℕ) → (resume : ℕ) → Bool
  | 0, _, _, _, _ => false
  | rounds + 1, p, n, back, resume =>
      if n < name.length then
        if pattern[p]? = some star then globFrom pattern name rounds (p + 1) n (some p) n
        else if p < pattern.length ∧ pattern[p]? = name[n]? then
          globFrom pattern name rounds (p + 1) (n + 1) back resume
        else
          match back with
          | some s => globFrom pattern name rounds (s + 1) (resume + 1) back (resume + 1)
          | none => false
      else (pattern.drop p).all (fun b => b = star)

/-- Matches `name` against `pattern`, where `*` stands for any run of bytes. -/
def glob (pattern name : Str) : Bool :=
  globFrom pattern name ((name.length + 1) * (pattern.length + 1)) 0 0 none 0

example : glob (text "ci/*") (text "ci/a/b") = true := by decide
example : glob (text "*/unit") (text "ci/units") = false := by decide

/-- Whether `grant` may report `name`: the refusal, if not. -/
def checkName (grant : Grant) (name : Str) : Option String :=
  if validName name = false then some "check_name_invalid"
  else if isReserved name = true then some "forbidden"
  else if grant.checks.any (fun pattern => glob pattern name) = true then none
  else some "check_name_not_allowed"

variable {Id : Type} [LinearOrder Id]

/-! ### The policy -/

/-- Why a check may not be required. -/
def refuseRequired (check : RequiredCheck) : Option ProtocolError :=
  if validName check.name = false then some ⟨"check_name_invalid", "invalid check name"⟩
  else if isReserved check.name = true then some ⟨"forbidden", "the name is reserved for the node"⟩
  else none

/-- Replaces the required checks.  The details of its errors leave the name out. -/
def setRequired (required : List RequiredCheck) : NodeM Id Unit :=
  match required.findSome? refuseRequired with
  | some error => Durable.fail (.protocol error)
  | none => FileWorldLog.update (fun n => { n with policy := required })

/-- Whether a stored result is for the tree and the check. -/
def concerns (tree : Id) (check : RequiredCheck) (result : CheckResult Id) : Bool :=
  decide (result.subject = tree) && decide (result.name = check.name) &&
    check.reporter.all (fun reporter => decide (result.reporter = reporter))

/-- The latest result for a tree and a check. -/
def latest (results : List (CheckResult Id)) (tree : Id) (check : RequiredCheck) : Option (CheckResult Id) :=
  (results.filter (concerns tree check)).getLast?

/-- Whether the reporter of a result holds a role. -/
def holdsRole (permissions : AppliedPermissions) (reporter : Str) : Bool :=
  ((PrincipalId.parse reporter).bind permissions.role).isSome

/-- What is wrong with the latest result for a check. -/
def unmetCheck (results : List (CheckResult Id)) (tree : Id) (permissions : Option AppliedPermissions)
    (check : RequiredCheck) : Option String :=
  match latest results tree check with
  | none => some "checks_missing"
  | some result =>
      if permissions.any (fun p => !holdsRole p result.reporter) = true then some "stale_permissions"
      else if result.conclusion ≠ .success then some "checks_failed"
      else none

/-- The first unmet requirement. -/
def unmet (n : FileWorldLog Id) (required : List RequiredCheck) (tree : Id)
    (permissions : Option AppliedPermissions) : Option String :=
  required.findSome? (unmetCheck n.results tree permissions)

/-- The refusal that a Publish of a tree meets. -/
def gateTree (tree : Id) (permissions : Option AppliedPermissions) : NodeM Id (Option String) :=
  FileWorldLog.look (fun n => unmet n n.policy tree permissions)

variable [Encoding Id]

/-- The tree a checkpoint holds, stored as a snapshot. -/
def checkpointTree (checkpoint : Id) : NodeM Id Id := do
  let manifest ← FileWorldLog.native (fun r => r.checkpointManifest checkpoint)
  FileWorldLog.store (fun r => r.putSnapshot manifest)

/-- The refusal that a Publish of a checkpoint meets. -/
def gate (checkpoint : Id) (permissions : Option AppliedPermissions) : NodeM Id (Option String) := do
  let required ← FileWorldLog.look (fun n => n.policy)
  if required = [] then return none
  else do
    let tree ← checkpointTree checkpoint
    FileWorldLog.look (fun n => unmet n required tree permissions)

/-! ### Reports -/

/-- The stored result of an operation, with its sequence number. -/
def recorded (results : List (CheckResult Id)) (operation : OperationId) : Option (CheckResult Id × ℕ) :=
  (results.zipIdx.find? (fun e => decide (e.1.operation = operation))).map (fun e => (e.1, e.2 + 1))

/-- Whether the named checkpoint holds the subject: the refusal, if not. -/
def checkSubject (report : CheckReport Id) : NodeM Id (Option String) :=
  match report.subjectCheckpoint with
  | none => return none
  | some checkpoint => do
      match ← FileWorldLog.tryNative (fun r => r.readDeep checkpoint) with
      | .error _ => return some "missing_object"
      | .ok _ => do
          let tree ← checkpointTree checkpoint
          if tree ≠ report.subjectTree then return some "tree_mismatch" else return none

variable [IdBytes Id]

/-- Stores a result and answers with its sequence number. -/
def insertResult (report : CheckReport Id) (bytes reporter : Str) : NodeM Id (CheckOutcome Id) :=
  Durable.transact (fun n =>
    let id := objectId (.blob (bytes ++ reporter) : Object Id)
    .ok (.accepted id (n.results.length + 1), { n with results := n.results ++
      [⟨report.operation, id, report.subjectTree, report.name, reporter, report.conclusion, report⟩] }))

/-- Stores one completed check result for a tree. -/
def report (caller : Caller) (report : CheckReport Id) : NodeM Id (CheckOutcome Id) := do
  let (grant, permissions) ← FileWorldLog.encoded (caller.authorize .checkReport none)
  match grant.principal with
  | none => FileWorldLog.throwNew "unauthorized" "a token is required"
  | some reporter => do
      let bytes ← FileWorldLog.encoded report.encode
      match ← FileWorldLog.look (fun n => recorded n.results report.operation) with
      | some (stored, seq) =>
          if stored.request = report ∧ stored.reporter = reporter then return .accepted stored.id seq
          else return .refused "operation_id_reused"
      | none =>
          if report.repository ≠ permissions.repository.text then return .refused "forbidden"
          else
            match checkName grant report.name with
            | some code => return .refused code
            | none => do
                match ← checkSubject report with
                | some code => return .refused code
                | none => do
                    if ← FileWorldLog.native (fun r => r.hasTree report.subjectTree) then
                      insertResult report bytes reporter
                    else return .refused "missing_object"

end Checks

end Javelin
