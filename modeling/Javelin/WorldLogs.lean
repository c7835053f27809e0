import Javelin.Access
import Javelin.Appends
import Javelin.Control
import Javelin.Durable
import Javelin.NumberedRecords
import Javelin.Protocol

/-! # The node's World log

`FileWorldLog` is a repository and the tables of `node.db` beside it.  A handler is a `Durable` program over
both: each transaction of the repository and each of the tables is one write, and the node may stop between
any two.  `native` reads the repository, `store` writes it, and `tryStore` answers with the error.

A record is kept as the message it encodes.  The encoding is injective; what it refuses is modelled
(`encode`).  The hash chain over review rows is left out. -/

namespace Javelin

open KeyedList Bytes Collaboration Identity Protocol

/-! ### Object IDs as text -/

namespace Control

theorem hexDigit_inj : ∀ m < 16, ∀ n < 16, hexDigit m = hexDigit n → m = n := by decide

theorem hex_injective : Function.Injective hex := by
  intro s
  induction s with
  | nil =>
      intro s' h
      cases s' with
      | nil => rfl
      | cons b s' => cases h
  | cons a s ih =>
      intro s' h
      cases s' with
      | nil => cases h
      | cons b s' =>
          unfold hex at h
          simp only [List.flatMap_cons, List.cons_append, List.nil_append, List.cons.injEq] at h
          obtain ⟨hhigh, hlow, hrest⟩ := h
          have ha := a.toNat_lt
          have hb := b.toNat_lt
          have h₁ := hexDigit_inj _ (by omega) _ (by omega) hhigh
          have h₂ := hexDigit_inj _ (by omega) _ (by omega) hlow
          have hbyte : a = b := UInt8.toNat_inj.mp (by omega)
          rw [hbyte, ih hrest]

end Control

/-- The bytes of an object ID. -/
class IdBytes (Id : Type) where
  idBytes : Id → Str
  idBytes_injective : Function.Injective idBytes

export IdBytes (idBytes)

instance : IdBytes ℕ where
  idBytes := decimal
  idBytes_injective n m h := by rw [← ofDecimal_decimal n, h, ofDecimal_decimal]

/-- `ObjectId::to_string`: lower-case hex. -/
def idText {Id : Type} [IdBytes Id] (id : Id) : Str := Control.hex (idBytes id)

theorem idText_injective {Id : Type} [IdBytes Id] : Function.Injective (idText : Id → Str) :=
  Control.hex_injective.comp IdBytes.idBytes_injective

/-! ### Messages -/

namespace Codec
variable {Id : Type}

/-- Reply to `PublishLayer` and `PublishRequest`. -/
inductive PublishOutcome (Id : Type) where
  | published (number : VersionNumber) (id tree : Id)
  | conflict (paths : List RepoPath)
  | layerStale (head : Id)
  | refused (code : String)
deriving DecidableEq

/-- A `PublishLayer` request. -/
structure PublishLayer (Id : Type) where
  operation : OperationId
  layer : LayerId
  expected : Id
  base : VersionNumber
  attribution : PublishAttribution Id
deriving DecidableEq

/-- A completed check conclusion. -/
inductive Conclusion where
  | success
  | failure
  | neutral
  | cancelled
  | timedOut
  | skipped
deriving DecidableEq

/-- Wire codes. -/
def Conclusion.code : Conclusion → UInt8
  | .success => 0
  | .failure => 1
  | .neutral => 2
  | .cancelled => 3
  | .timedOut => 4
  | .skipped => 5

/-- One completed check result. -/
structure CheckReport (Id : Type) where
  operation : OperationId
  repository : Str
  subjectTree : Id
  subjectCheckpoint : Option Id
  name : Str
  conclusion : Conclusion
  detailsUrl : Option Str
  summary : Option Str
  startedAt : UInt64
  completedAt : UInt64
deriving DecidableEq

/-- Reply to `CheckReport`. -/
inductive CheckOutcome (Id : Type) where
  | accepted (id : Id) (seq : ℕ)
  | refused (code : String)
deriving DecidableEq

/-- Reply to a review message. -/
inductive Reply (Id : Type) where
  | accepted (revision : ℕ)
  | refused (code : String)
  | publishOutcome (outcome : PublishOutcome Id)
  | requestState (request : RequestId) (state : RequestState) (revision : ℕ)
deriving DecidableEq

/-- Largest `detailsUrl`. -/
def MAX_DETAILS_URL : ℕ := 2 * 2 ^ 10
/-- Largest `summary`. -/
def MAX_SUMMARY : ℕ := 64 * 2 ^ 10
def CHECK_REPORT : UInt8 := 0x60

/-- Length of a text of at most 255 bytes with its length. -/
def short (s : Str) : Except ProtocolError ℕ :=
  if 255 < s.length then .error ⟨"malformed", "text exceeds 255 bytes"⟩ else .ok (1 + s.length)

def checkFrame (len : ℕ) : Except ProtocolError Unit :=
  if MAX_FRAME < len then .error ⟨"limit_exceeded", "frame exceeds size limit"⟩ else .ok ()

/-- `encoded_len` of an outcome. -/
def PublishOutcome.len : PublishOutcome Id → Except ProtocolError ℕ
  | .published _ _ _ => return 74
  | .conflict paths =>
      if MAX_WANT < paths.length then throw ⟨"limit_exceeded", "count exceeds limit"⟩
      else return paths.foldl (fun len path => len + (2 + path.asStr.length)) 6
  | .layerStale _ => return 34
  | .refused code => do
      let len ← short (text code)
      return 2 + len

/-- Whether an outcome can be encoded. -/
def PublishOutcome.encode (outcome : PublishOutcome Id) : Except ProtocolError Unit := do
  let len ← outcome.len
  checkFrame len

/-- `encoded_len` of an attribution. -/
def attributionLen : PublishAttribution Id → ℕ
  | .human => 1
  | .agent _ _ => 1 + 33 + 1

/-- Whether a request can be encoded. -/
def PublishLayer.encode (request : PublishLayer Id) : Except ProtocolError Unit := do
  let operation ← short request.operation.text
  let layer ← short request.layer.text
  checkFrame (1 + operation + layer + 32 + 8 + attributionLen request.attribution)

def putShort (s : Str) : Str := UInt8.ofNat s.length :: s

def putOptionalText (s : Option Str) : Str := (if s.isSome then 1 else 0) :: (toBe 4 (s.getD []).length ++ s.getD [])

variable [IdBytes Id]

def putOptionalId : Option Id → Str
  | some id => 1 :: idBytes id
  | none => 0 :: List.replicate 32 0

/-- The bytes of a report. -/
def CheckReport.bytes (report : CheckReport Id) : Str :=
  CHECK_REPORT :: (putShort report.operation.text ++ putShort report.repository ++ idBytes report.subjectTree ++
    putOptionalId report.subjectCheckpoint ++ putShort report.name ++ [report.conclusion.code] ++
    putOptionalText report.detailsUrl ++ putOptionalText report.summary ++
    toBe 8 report.startedAt.toNat ++ toBe 8 report.completedAt.toNat)

/-- Encodes a report; refuses what cannot be encoded. -/
def CheckReport.encode (report : CheckReport Id) : Except ProtocolError Str := do
  if report.detailsUrl = some [] ∨ report.summary = some [] then
    throw ⟨"malformed", "optional text must be absent or nonempty"⟩
  else if MAX_DETAILS_URL < (report.detailsUrl.getD []).length then
    throw ⟨"limit_exceeded", "details URL exceeds limit"⟩
  else if MAX_SUMMARY < (report.summary.getD []).length then throw ⟨"limit_exceeded", "summary exceeds limit"⟩
  else do
    let _ ← short report.operation.text
    let _ ← short report.repository
    let _ ← short report.name
    return report.bytes

end Codec

/-! ### Tables -/

/-- A check that must pass at Publish. -/
structure RequiredCheck where
  name : Str
  reporter : Option Str
deriving DecidableEq

/-- A row of `check_results`; the row at index `n` has sequence number `n + 1`. -/
structure CheckResult (Id : Type) where
  operation : OperationId
  id : Id
  subject : Id
  name : Str
  reporter : Str
  conclusion : Codec.Conclusion
  request : Codec.CheckReport Id
deriving DecidableEq

/-- A row of `review_rows`. -/
structure ReviewRow (Id : Type) where
  request : RequestId
  epoch : ℕ
  command : Command Id
  reply : Codec.Reply Id
deriving DecidableEq

/-- `fork_of`: the source repository, the version forked at, and that version's ID. -/
structure Origin (Id : Type) where
  source : Str
  number : VersionNumber
  version : Id
deriving DecidableEq

/-- A repository, and the tables of `node.db`. -/
structure FileWorldLog (Id : Type) [LinearOrder Id] where
  repo : Repository Id
  changes : ChangesTable Id
  decided : SortedMap OperationId (Codec.PublishLayer Id × Codec.PublishOutcome Id)
  policy : List RequiredCheck
  results : List (CheckResult Id)
  requests : SortedMap RequestId Str
  rows : List (ReviewRow Id)
  restricted : List Id
  origin : Option (Origin Id)
  forkTraces : SortedMap Id VersionNumber
  omitted : List Id

/-! ### Programs -/

/-- Why a message got no answer. -/
inductive NodeError (Id : Type) where
  | protocol (error : ProtocolError)
  | native (error : Error Id)
  | panicked
deriving DecidableEq

/-- The stable code of a failure. -/
def NodeError.code {Id : Type} : NodeError Id → String
  | .protocol error => error.code
  | .native error => error.code
  | .panicked => "panicked"

/-- Programs of a node. -/
abbrev NodeM (Id : Type) [LinearOrder Id] (α : Type) := Durable (FileWorldLog Id) (NodeError Id) α

namespace FileWorldLog

variable {Id : Type} [LinearOrder Id] {α : Type}

/-- A node over a new repository. -/
def initial [Encoding Id] (identity : Id) : FileWorldLog Id :=
  ⟨Repository.initial identity, SortedMap.empty, SortedMap.empty, [], [], SortedMap.empty, [], [], none,
    SortedMap.empty, []⟩

/-- Reads the tables. -/
def look (f : FileWorldLog Id → α) : NodeM Id α := Durable.read (fun n => .ok (f n))

/-- Changes the tables. -/
def update (f : FileWorldLog Id → FileWorldLog Id) : NodeM Id Unit := Durable.transact (fun n => .ok ((), f n))

/-- Reads the repository. -/
def native (f : Repository Id → Except (Error Id) α) : NodeM Id α :=
  Durable.read (fun n => (f n.repo).mapError NodeError.native)

/-- Reads the repository; an error is the answer. -/
def tryNative (f : Repository Id → Except (Error Id) α) : NodeM Id (Except (Error Id) α) :=
  Durable.read (fun n => .ok (f n.repo))

/-- A transaction of the repository, on the node. -/
def withRepo (f : Repository Id → Except (Error Id) (α × Repository Id)) (n : FileWorldLog Id) :
    Except (Error Id) (α × FileWorldLog Id) :=
  (f n.repo).map (fun p => (p.1, { n with repo := p.2 }))

/-- Writes the repository. -/
def store (f : Repository Id → Except (Error Id) (α × Repository Id)) : NodeM Id α :=
  Durable.transact (fun n => (withRepo f n).mapError NodeError.native)

/-- Writes the repository; an error is the answer. -/
def tryStore (f : Repository Id → Except (Error Id) (α × Repository Id)) : NodeM Id (Except (Error Id) α) :=
  Durable.attempt (withRepo f)

/-- An encoding that is refused is an error. -/
def encoded (x : Except ProtocolError α) : NodeM Id α := Durable.read (fun _ => x.mapError NodeError.protocol)

/-- A failure with a stable code. -/
def throwNew (code detail : String) : NodeM Id α := Durable.fail (.protocol ⟨code, detail⟩)

end FileWorldLog

/-! ### The gate -/

/-- What a handler sees of the gate: what it answers to a token at a time, and the applied permissions. -/
structure Gate where
  check : Option Str → UInt64 → Need → Except ProtocolError Grant
  permissions : Option AppliedPermissions

/-- A gate's answer to one caller, at one time. -/
structure Caller where
  gate : Gate
  token : Option Str
  now : UInt64

/-- `authorize`: the grant, and the permissions that are applied. -/
def Caller.authorize (caller : Caller) (scope : Scope) (layer : Option Str) :
    Except ProtocolError (Grant × AppliedPermissions) := do
  let grant ← caller.gate.check caller.token caller.now ⟨scope, layer⟩
  match caller.gate.permissions with
  | none => throw ⟨"forbidden", "no permissions are applied yet"⟩
  | some permissions => return (grant, permissions)

end Javelin
