import Javelin.Wire

/-! # Wire messages

Version 2 of the wire format.  `encode` checks every count and length of a message against the limits
(`encodedLen`) and writes its body: a tag and the fields behind it.  `decode` reads a body, and checks every
count, every length and every form of absence again. -/

namespace Javelin.Wire

open Bytes Protocol Collaboration

/-! ### Messages -/

/-- What `Publish` answers. -/
inductive Outcome where
  | accepted (number : WireVersion) (tree : ObjectId) (operation : WireOperation)
  | stale (actual : WireVersion)

/-- Reply to `LayerAppend` and `LayerStack`. -/
inductive LayerOutcome where
  | accepted (seq : UInt64) (checkpoint : ObjectId)
  | stale (head : ObjectId)
  | refused (code : String)

/-- Reply to `PublishLayer` and `PublishRequest`. -/
inductive PublishOutcome where
  | published (number : WireVersion) (id tree : ObjectId)
  | conflict (paths : List WirePath)
  | layerStale (head : ObjectId)
  | refused (code : String)

/-- Reply to `OpenRequest`, `Revise`, `Approve` and `Comment`. -/
inductive ReviewOutcome where
  | accepted (revision : UInt32)
  | refused (code : String)

/-- One completed check result for a tree. -/
structure CheckReport where
  operation : WireOperation
  repository : String
  subjectTree : ObjectId
  subjectCheckpoint : Option ObjectId
  name : String
  conclusion : Codec.Conclusion
  detailsUrl : Option String
  summary : Option String
  startedAt : UInt64
  completedAt : UInt64

/-- Reply to `CheckReport`. -/
inductive CheckOutcome where
  | accepted (id : ObjectId) (seq : UInt64)
  | refused (code : String)

/-- An object on the wire. -/
structure WireObject where
  kind : Kind
  id : ObjectId
  bytes : Str

inductive Message where
  | hello (min max : UInt16)
  | helloOk (version : UInt16)
  | permissions
  | applied (epoch : UInt64) (callerRole : Role) (visibility : Visibility)
  | want (items : List (Kind × ObjectId))
  | missing (items : List (Kind × ObjectId))
  | get (items : List (Kind × ObjectId))
  | objects (objects : List WireObject)
  | stored (count : UInt32)
  | publish (operation : WireOperation) (expected : WireVersion) (tree : ObjectId)
  | outcome (outcome : Outcome)
  | layerAppend (operation : WireOperation) (layer : WireLayer) (parent : Option ObjectId) (checkpoint : ObjectId)
  | layerOutcome (outcome : LayerOutcome)
  | layerHead (layer : WireLayer)
  | layerState (layer : WireLayer) (base : WireVersion) (seq : UInt64) (head : ObjectId) (state : LayerStatus)
  | layerStack (operation : WireOperation) (target : WireLayer) (targetHead source : ObjectId)
  | publishLayer (operation : WireOperation) (layer : WireLayer) (expected : ObjectId) (base : WireVersion)
      (attribution : PublishAttribution ObjectId)
  | publishOutcome (outcome : PublishOutcome)
  | publishRequest (operation : WireOperation) (request : RequestId) (revision : UInt32) (base : WireVersion)
  | resolve (version : Option WireVersion)
  | resolved (number : WireVersion) (id tree : ObjectId)
  | changeset (version : WireVersion) (offset : UInt64)
  | changesetPart (total : UInt64) (bytes : Str)
  | openRequest (operation : WireOperation) (request : RequestId) (layer : WireLayer) (checkpoint : ObjectId)
      (base : WireVersion)
  | reviewOutcome (outcome : ReviewOutcome)
  | revise (operation : WireOperation) (request : RequestId) (expectedRevision : UInt32) (checkpoint : ObjectId)
      (base : WireVersion)
  | approve (operation : WireOperation) (request : RequestId) (revision : UInt32)
  | comment (operation : WireOperation) (request : RequestId) (revision : Option UInt32) (body : String)
  | readRequest (request : RequestId)
  | checkReport (report : CheckReport)
  | checkOutcome (outcome : CheckOutcome)
  | requestState (request : RequestId) (state : RequestStatus) (revision : UInt32)
  | error (code detail : String)

/-- Largest `detail`. -/
def MAX_DETAIL : ℕ := 1024
/-- Longest comment body. -/
def MAX_COMMENT : ℕ := 64 * 2 ^ 10

/-- `MAGIC`. -/
def MAGIC : Str := text "JVLP"

/-! ### Tags -/

def HELLO : UInt8 := 0x01
def HELLO_OK : UInt8 := 0x02
def PERMISSIONS : UInt8 := 0x03
def APPLIED : UInt8 := 0x06
def WANT : UInt8 := 0x10
def MISSING : UInt8 := 0x11
def GET : UInt8 := 0x12
def OBJECTS : UInt8 := 0x20
def STORED : UInt8 := 0x22
def PUBLISH : UInt8 := 0x30
def OUTCOME : UInt8 := 0x31
def LAYER_OUTCOME : UInt8 := 0x33
def LAYER_APPEND : UInt8 := 0x34
def LAYER_HEAD : UInt8 := 0x35
def LAYER_STATE : UInt8 := 0x36
def LAYER_STACK : UInt8 := 0x37
def PUBLISH_LAYER : UInt8 := 0x38
def PUBLISH_OUTCOME : UInt8 := 0x39
def PUBLISH_REQUEST : UInt8 := 0x3a
def RESOLVE : UInt8 := 0x40
def RESOLVED : UInt8 := 0x41
def CHANGESET : UInt8 := 0x42
def CHANGESET_PART : UInt8 := 0x43
def OPEN_REQUEST : UInt8 := 0x50
def REVIEW_OUTCOME : UInt8 := 0x51
def REVISE : UInt8 := 0x52
def APPROVE : UInt8 := 0x53
def COMMENT : UInt8 := 0x54
def READ_REQUEST : UInt8 := 0x55
def REQUEST_STATE : UInt8 := 0x56
def CHECK_OUTCOME : UInt8 := 0x61
def ERROR : UInt8 := 0x7f

/-! ### Writing -/

def putItem (item : Kind × ObjectId) : Str := kindCode item.1 :: putId item.2

def putItems (items : List (Kind × ObjectId)) : Str := putCount items.length ++ items.flatMap putItem

def putObject (object : WireObject) : Str := kindCode object.kind :: (putId object.id ++ putSized object.bytes)

/-- The fields of a report, behind its tag. -/
def putReport (report : CheckReport) : Str :=
  putOperation report.operation ++ putShort report.repository ++ putId report.subjectTree ++
    putOptionalId report.subjectCheckpoint ++ putShort report.name ++ [report.conclusion.code] ++
    putOptionalText report.detailsUrl ++ putOptionalText report.summary ++ putU64 report.startedAt ++
    putU64 report.completedAt

/-- What `encode` writes. -/
def body : Message → Str
  | .hello min max => HELLO :: (MAGIC ++ putU16 min ++ putU16 max)
  | .helloOk version => HELLO_OK :: putU16 version
  | .permissions => [PERMISSIONS]
  | .applied epoch callerRole visibility =>
      APPLIED :: (putU64 epoch ++ [roleCode callerRole] ++ [visibilityCode visibility])
  | .want items => WANT :: putItems items
  | .missing items => MISSING :: putItems items
  | .get items => GET :: putItems items
  | .objects objects => OBJECTS :: (putCount objects.length ++ objects.flatMap putObject)
  | .stored count => STORED :: putU32 count
  | .publish operation expected tree => PUBLISH :: (putOperation operation ++ putVersion expected ++ putId tree)
  | .outcome (.accepted number tree operation) =>
      OUTCOME :: ([0] ++ putVersion number ++ putId tree ++ putOperation operation)
  | .outcome (.stale actual) => OUTCOME :: ([1] ++ putVersion actual)
  | .layerAppend operation layer parent checkpoint =>
      LAYER_APPEND :: (putOperation operation ++ putLayer layer ++ putOptionalId parent ++ putId checkpoint)
  | .layerOutcome (.accepted seq checkpoint) => LAYER_OUTCOME :: ([0] ++ putU64 seq ++ putId checkpoint)
  | .layerOutcome (.stale head) => LAYER_OUTCOME :: ([1] ++ putId head)
  | .layerOutcome (.refused code) => LAYER_OUTCOME :: ([2] ++ putShort code)
  | .layerHead layer => LAYER_HEAD :: putLayer layer
  | .layerState layer base seq head state =>
      LAYER_STATE :: (putLayer layer ++ putVersion base ++ putU64 seq ++ putId head ++ [state.code])
  | .layerStack operation target targetHead source =>
      LAYER_STACK :: (putOperation operation ++ putLayer target ++ putId targetHead ++ putId source)
  | .publishLayer operation layer expected base attribution =>
      PUBLISH_LAYER :: (putOperation operation ++ putLayer layer ++ putId expected ++ putVersion base ++
        putAttribution attribution)
  | .publishOutcome (.published number id tree) =>
      PUBLISH_OUTCOME :: ([0] ++ putVersion number ++ putId id ++ putId tree)
  | .publishOutcome (.conflict paths) =>
      PUBLISH_OUTCOME :: ([1] ++ putCount paths.length ++ paths.flatMap putPath)
  | .publishOutcome (.layerStale head) => PUBLISH_OUTCOME :: ([2] ++ putId head)
  | .publishOutcome (.refused code) => PUBLISH_OUTCOME :: ([3] ++ putShort code)
  | .publishRequest operation request revision base =>
      PUBLISH_REQUEST :: (putOperation operation ++ putRequest request ++ putU32 revision ++ putVersion base)
  | .resolve version => RESOLVE :: ([flagCode version.isSome] ++ putVersion (version.getD ⟨0, Nat.zero_le _⟩))
  | .resolved number id tree => RESOLVED :: (putVersion number ++ putId id ++ putId tree)
  | .changeset version offset => CHANGESET :: (putVersion version ++ putU64 offset)
  | .changesetPart total bytes => CHANGESET_PART :: (putU64 total ++ putSized bytes)
  | .openRequest operation request layer checkpoint base =>
      OPEN_REQUEST :: (putOperation operation ++ putRequest request ++ putLayer layer ++ putId checkpoint ++
        putVersion base)
  | .reviewOutcome (.accepted revision) => REVIEW_OUTCOME :: ([0] ++ putU32 revision)
  | .reviewOutcome (.refused code) => REVIEW_OUTCOME :: ([1] ++ putShort code)
  | .revise operation request expectedRevision checkpoint base =>
      REVISE :: (putOperation operation ++ putRequest request ++ putU32 expectedRevision ++ putId checkpoint ++
        putVersion base)
  | .approve operation request revision =>
      APPROVE :: (putOperation operation ++ putRequest request ++ putU32 revision)
  | .comment operation request revision body =>
      COMMENT :: (putOperation operation ++ putRequest request ++ putOptionalU32 revision ++ putSized (text body))
  | .readRequest request => READ_REQUEST :: putRequest request
  | .requestState request state revision =>
      REQUEST_STATE :: (putRequest request ++ [state.code] ++ putU32 revision)
  | .checkReport report => Codec.CHECK_REPORT :: putReport report
  | .checkOutcome (.accepted id seq) => CHECK_OUTCOME :: ([0] ++ putId id ++ putU64 seq)
  | .checkOutcome (.refused code) => CHECK_OUTCOME :: ([1] ++ putShort code)
  | .error code detail =>
      ERROR :: (putShort code ++ toBe 2 (truncateUtf8 detail MAX_DETAIL).length ++ truncateUtf8 detail MAX_DETAIL)

/-- Size of a text field with a length of one byte. -/
def short (s : String) : Except ProtocolError ℕ := Codec.short (text s)

/-- A list within its limit. -/
def counted {α : Type} (max : ℕ) (items : List α) (e : ProtocolError) : Except ProtocolError Unit :=
  if max < items.length then .error e else .ok ()

/-- The size of a report, tag included. -/
def reportLen (report : CheckReport) : Except ProtocolError ℕ := do
  if report.detailsUrl = some "" ∨ report.summary = some "" then
    throw (malformed "optional text must be absent or nonempty")
  else do
    let url := (report.detailsUrl.map text).getD []
    let summary := (report.summary.map text).getD []
    counted Codec.MAX_DETAILS_URL url (limit "details URL exceeds limit")
    counted Codec.MAX_SUMMARY summary (limit "summary exceeds limit")
    let operation ← Codec.short report.operation.1.text
    let repository ← short report.repository
    let name ← short report.name
    return 1 + operation + repository + 32 + 33 + name + 1 + 5 + url.length + 5 + summary.length + 16

/-- The sizes of the objects; one that is too large is refused. -/
def objectsLen : List WireObject → Except ProtocolError ℕ
  | [] => return 0
  | object :: objects => do
      counted (kindLimit object.kind) object.bytes (limit "object exceeds size limit")
      let rest ← objectsLen objects
      return OBJECT_OVERHEAD + object.bytes.length + rest

/-- The size of a message before the check of the whole. -/
def bound : Message → Except ProtocolError ℕ
  | .hello _ _ => return 9
  | .helloOk _ => return 3
  | .permissions => return 1
  | .applied _ _ _ => return 11
  | .want items | .missing items | .get items => do
      counted MAX_WANT items (limit "count exceeds limit")
      return 5 + items.length * 33
  | .objects objects => do
      counted MAX_OBJECTS objects (limit "count exceeds limit")
      let len ← objectsLen objects
      return 5 + len
  | .stored _ => return 5
  | .publish operation _ _ => do
      let operation ← Codec.short operation.1.text
      return 41 + operation
  | .outcome (.accepted _ _ operation) => do
      let operation ← Codec.short operation.1.text
      return 42 + operation
  | .outcome (.stale _) => return 10
  | .layerAppend operation layer _ _ => do
      let operation ← Codec.short operation.1.text
      let layer ← Codec.short layer.1.text
      return 1 + operation + layer + 33 + 32
  | .layerOutcome (.accepted _ _) => return 42
  | .layerOutcome (.stale _) => return 34
  | .layerOutcome (.refused code) => do
      let code ← short code
      return 2 + code
  | .layerHead layer => do
      let layer ← Codec.short layer.1.text
      return 1 + layer
  | .layerState layer _ _ _ _ => do
      let layer ← Codec.short layer.1.text
      return 1 + layer + 8 + 8 + 32 + 1
  | .layerStack operation target _ _ => do
      let operation ← Codec.short operation.1.text
      let target ← Codec.short target.1.text
      return 1 + operation + target + 64
  | .publishLayer operation layer _ _ attribution => do
      let operation ← Codec.short operation.1.text
      let layer ← Codec.short layer.1.text
      return 1 + operation + layer + 32 + 8 + Codec.attributionLen attribution
  | .publishOutcome (.published _ _ _) => return 74
  | .publishOutcome (.conflict paths) => do
      counted MAX_WANT paths (limit "count exceeds limit")
      return paths.foldl (fun len path => len + (2 + path.1.asStr.length)) 6
  | .publishOutcome (.layerStale _) => return 34
  | .publishOutcome (.refused code) => do
      let code ← short code
      return 2 + code
  | .publishRequest operation request _ _ => do
      let operation ← Codec.short operation.1.text
      let request ← Codec.short request.text
      return 1 + operation + request + 4 + 8
  | .resolve _ => return 10
  | .resolved _ _ _ => return 73
  | .changeset _ _ => return 17
  | .changesetPart _ bytes => do
      counted MAX_CHANGESET_PART bytes (limit "changeset part exceeds limit")
      return 13 + bytes.length
  | .openRequest operation request layer _ _ => do
      let operation ← Codec.short operation.1.text
      let request ← Codec.short request.text
      let layer ← Codec.short layer.1.text
      return 1 + operation + request + layer + 32 + 8
  | .reviewOutcome (.accepted _) => return 6
  | .reviewOutcome (.refused code) => do
      let code ← short code
      return 2 + code
  | .revise operation request _ _ _ => do
      let operation ← Codec.short operation.1.text
      let request ← Codec.short request.text
      return 1 + operation + request + 4 + 32 + 8
  | .approve operation request _ => do
      let operation ← Codec.short operation.1.text
      let request ← Codec.short request.text
      return 1 + operation + request + 4
  | .comment operation request _ body => do
      counted MAX_COMMENT (text body) (limit "comment exceeds limit")
      let operation ← Codec.short operation.1.text
      let request ← Codec.short request.text
      return 1 + operation + request + 5 + 4 + (text body).length
  | .readRequest request => do
      let request ← Codec.short request.text
      return 1 + request
  | .requestState request _ _ => do
      let request ← Codec.short request.text
      return 1 + request + 1 + 4
  | .checkReport report => reportLen report
  | .checkOutcome (.accepted _ _) => return 42
  | .checkOutcome (.refused code) => do
      let code ← short code
      return 2 + code
  | .error code _ => do
      counted 255 (text code) (malformed "error code too long")
      return 4 + (text code).length + MAX_DETAIL

/-- Upper bound on the encoded body, checked against the limits. -/
def encodedLen (message : Message) : Except ProtocolError ℕ := do
  let len ← bound message
  if MAX_FRAME < len then throw (limit "frame exceeds size limit") else return len

/-- Encodes one body. -/
def encode (message : Message) : Except ProtocolError Str := do
  let _ ← encodedLen message
  return body message

/-! ### Reading -/

def readHello : FieldReader Message := do
  let magic ← take endsInside 4
  if magic ≠ MAGIC then Bytes.refuse (malformed "bad protocol magic")
  else do
    let min ← readU16
    let max ← readU16
    if max < min then Bytes.refuse (malformed "empty version range") else return .hello min max

def readHelloOk : FieldReader Message := do
  let version ← readU16
  return .helloOk version

def readApplied : FieldReader Message := do
  let epoch ← readU64
  let callerRole ← readRole
  let visibility ← readVisibility
  return .applied epoch callerRole visibility

def readItem : FieldReader (Kind × ObjectId) := do
  let kind ← readKind
  let id ← readId
  return (kind, id)

/-- `WANT | MISSING | GET`. -/
def readItems (message : List (Kind × ObjectId) → Message) : FieldReader Message := do
  let n ← readCount MAX_WANT (limit "count exceeds limit")
  let items ← readMany readItem n
  return message items

/-- Tree chunks must be canonically encoded. -/
def checkChunk (kind : Kind) (bytes : Str) : Except ProtocolError Str :=
  if kind = .tree then
    match Chunk.unpack bytes with
    | .ok _ => .ok bytes
    | .error why => .error (malformed ("invalid input: malformed tree chunk: " ++ why))
  else .ok bytes

def readObject : FieldReader WireObject := do
  let kind ← readKind
  let id ← readId
  let bytes ← checked (readSized (kindLimit kind) (limit "object exceeds size limit")) (checkChunk kind)
  return ⟨kind, id, bytes⟩

def readObjects : FieldReader Message := do
  let n ← readCount MAX_OBJECTS (limit "count exceeds limit")
  let objects ← readMany readObject n
  return .objects objects

def readStored : FieldReader Message := do
  let count ← readU32
  return .stored count

def readPublish : FieldReader Message := do
  let operation ← readOperation
  let expected ← readVersion
  let tree ← readId
  return .publish operation expected tree

def readOutcome : FieldReader Message := do
  let tag ← readU8
  if tag = 0 then do
    let number ← readVersion
    let tree ← readId
    let operation ← readOperation
    return .outcome (.accepted number tree operation)
  else if tag = 1 then do
    let actual ← readVersion
    return .outcome (.stale actual)
  else Bytes.refuse (malformed "unknown outcome")

def readLayerAppend : FieldReader Message := do
  let operation ← readOperation
  let layer ← readLayer
  let parent ← readOptionalId
  let checkpoint ← readId
  return .layerAppend operation layer parent checkpoint

def readLayerOutcome : FieldReader Message := do
  let tag ← readU8
  if tag = 0 then do
    let seq ← readU64
    let checkpoint ← readId
    return .layerOutcome (.accepted seq checkpoint)
  else if tag = 1 then do
    let head ← readId
    return .layerOutcome (.stale head)
  else if tag = 2 then do
    let code ← readShortStr
    return .layerOutcome (.refused code)
  else Bytes.refuse (malformed "unknown layer outcome")

def readLayerHead : FieldReader Message := do
  let layer ← readLayer
  return .layerHead layer

def readLayerState : FieldReader Message := do
  let layer ← readLayer
  let base ← readVersion
  let seq ← readU64
  let head ← readId
  let state ← readLayerStatus
  return .layerState layer base seq head state

def readLayerStack : FieldReader Message := do
  let operation ← readOperation
  let target ← readLayer
  let targetHead ← readId
  let source ← readId
  return .layerStack operation target targetHead source

def readPublishLayer : FieldReader Message := do
  let operation ← readOperation
  let layer ← readLayer
  let expected ← readId
  let base ← readVersion
  let attribution ← readAttribution
  return .publishLayer operation layer expected base attribution

def readPublishOutcome : FieldReader Message := do
  let tag ← readU8
  if tag = 0 then do
    let number ← readVersion
    let id ← readId
    let tree ← readId
    return .publishOutcome (.published number id tree)
  else if tag = 1 then do
    let n ← readCount MAX_WANT (limit "count exceeds limit")
    let paths ← readMany readPath n
    return .publishOutcome (.conflict paths)
  else if tag = 2 then do
    let head ← readId
    return .publishOutcome (.layerStale head)
  else if tag = 3 then do
    let code ← readShortStr
    return .publishOutcome (.refused code)
  else Bytes.refuse (malformed "unknown publish outcome")

def readPublishRequest : FieldReader Message := do
  let operation ← readOperation
  let request ← readRequest
  let revision ← readU32
  let base ← readVersion
  return .publishRequest operation request revision base

def readResolve : FieldReader Message := do
  let flag ← readU8
  let version ← readVersion
  if flag = 0 ∧ version.1 = 0 then return .resolve none
  else if flag = 1 then return .resolve (some version)
  else Bytes.refuse (malformed "invalid version selector")

def readResolved : FieldReader Message := do
  let number ← readVersion
  let id ← readId
  let tree ← readId
  return .resolved number id tree

def readChangeset : FieldReader Message := do
  let version ← readVersion
  let offset ← readU64
  return .changeset version offset

def readChangesetPart : FieldReader Message := do
  let total ← readU64
  let bytes ← readSized MAX_CHANGESET_PART (limit "changeset part exceeds limit")
  return .changesetPart total bytes

def readOpenRequest : FieldReader Message := do
  let operation ← readOperation
  let request ← readRequest
  let layer ← readLayer
  let checkpoint ← readId
  let base ← readVersion
  return .openRequest operation request layer checkpoint base

def readReviewOutcome : FieldReader Message := do
  let tag ← readU8
  if tag = 0 then do
    let revision ← readU32
    return .reviewOutcome (.accepted revision)
  else if tag = 1 then do
    let code ← readShortStr
    return .reviewOutcome (.refused code)
  else Bytes.refuse (malformed "unknown review outcome")

def readRevise : FieldReader Message := do
  let operation ← readOperation
  let request ← readRequest
  let expectedRevision ← readU32
  let checkpoint ← readId
  let base ← readVersion
  return .revise operation request expectedRevision checkpoint base

def readApprove : FieldReader Message := do
  let operation ← readOperation
  let request ← readRequest
  let revision ← readU32
  return .approve operation request revision

def readComment : FieldReader Message := do
  let operation ← readOperation
  let request ← readRequest
  let revision ← readOptionalU32
  let body ← readText32 MAX_COMMENT
  return .comment operation request revision body

def readReadRequest : FieldReader Message := do
  let request ← readRequest
  return .readRequest request

def readRequestState : FieldReader Message := do
  let request ← readRequest
  let state ← readRequestStatus
  let revision ← readU32
  return .requestState request state revision

def readCheckReport : FieldReader Message := do
  let operation ← readOperation
  let repository ← readShortStr
  let subjectTree ← readId
  let subjectCheckpoint ← readOptionalId
  let name ← readShortStr
  let conclusion ← readConclusion
  let detailsUrl ← readOptionalText Codec.MAX_DETAILS_URL
  let summary ← readOptionalText Codec.MAX_SUMMARY
  let startedAt ← readU64
  let completedAt ← readU64
  return .checkReport ⟨operation, repository, subjectTree, subjectCheckpoint, name, conclusion, detailsUrl, summary,
    startedAt, completedAt⟩

def readCheckOutcome : FieldReader Message := do
  let tag ← readU8
  if tag = 0 then do
    let id ← readId
    let seq ← readU64
    return .checkOutcome (.accepted id seq)
  else if tag = 1 then do
    let code ← readShortStr
    return .checkOutcome (.refused code)
  else Bytes.refuse (malformed "unknown check outcome")

/-- The detail of an error: a length of two bytes within its limit, then text. -/
def readDetail : FieldReader String :=
  checked (sized endsInside (readWithin 2 MAX_DETAIL (limit "error detail exceeds limit")))
    (utf8 "error detail is not UTF-8")

def readError : FieldReader Message := do
  let code ← readShortStr
  let detail ← readDetail
  return .error code detail

/-- The reader behind each tag. -/
def readers : List (UInt8 × FieldReader Message) :=
  [(HELLO, readHello), (HELLO_OK, readHelloOk), (PERMISSIONS, return .permissions), (APPLIED, readApplied),
    (WANT, readItems .want), (MISSING, readItems .missing), (GET, readItems .get), (OBJECTS, readObjects),
    (STORED, readStored), (PUBLISH, readPublish), (OUTCOME, readOutcome), (LAYER_APPEND, readLayerAppend),
    (LAYER_OUTCOME, readLayerOutcome), (LAYER_HEAD, readLayerHead), (LAYER_STATE, readLayerState),
    (LAYER_STACK, readLayerStack), (PUBLISH_LAYER, readPublishLayer), (PUBLISH_OUTCOME, readPublishOutcome),
    (PUBLISH_REQUEST, readPublishRequest), (RESOLVE, readResolve), (CHANGESET, readChangeset),
    (CHANGESET_PART, readChangesetPart), (RESOLVED, readResolved), (OPEN_REQUEST, readOpenRequest),
    (REVIEW_OUTCOME, readReviewOutcome), (REVISE, readRevise), (APPROVE, readApprove), (COMMENT, readComment),
    (READ_REQUEST, readReadRequest), (REQUEST_STATE, readRequestState), (Codec.CHECK_REPORT, readCheckReport),
    (CHECK_OUTCOME, readCheckOutcome), (ERROR, readError)]

def readMessage : FieldReader Message := do
  let tag ← readU8
  match readers.lookup tag with
  | some reader => reader
  | none => Bytes.refuse (malformed "unknown message tag")

/-- Decodes one complete frame body. -/
def decode (body : Str) : Except ProtocolError Message :=
  if MAX_FRAME < body.length then .error (limit "frame exceeds size limit")
  else do
    let (message, rest) ← readMessage body
    if rest ≠ [] then throw (malformed "trailing bytes after message") else return message

end Javelin.Wire
