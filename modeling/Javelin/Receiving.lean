import Javelin.Appends
import Javelin.Imports
import Javelin.Protocol
import Javelin.Versions

/-! # The receiver

`handle` answers one message over a repository.  An object is stored only if its own ID is the claimed one, a batch
stops at the first object that is refused and keeps those before it, and the World advances only through
`advanceToTree`.  `serve` is a session, which ends at the first refusal. -/

namespace Javelin

open KeyedList

variable {Id : Type} [LinearOrder Id] [Encoding Id]

namespace Repository

/-- `read_object_bounded` of a blob: an object over `maxBytes` is refused. -/
def readBlobBounded (r : Repository Id) (id : Id) (maxBytes : ℕ) : Except (Error Id ⊕ ℕ) Str :=
  match r.objects.readBlob id with
  | .error e => .error (.inl e)
  | .ok bytes => if maxBytes < bytes.length then .error (.inr bytes.length) else .ok bytes

/-- `tree_bytes_bounded`: the bytes of a chunk, which have to decode. -/
def treeBytes (r : Repository Id) (id : Id) (maxBytes : ℕ) : Except (Error Id ⊕ ℕ) (Chunk Id) :=
  match r.objects.readTree id with
  | .error e => .error (.inl e)
  | .ok chunk =>
      if maxBytes < chunk.size then .error (.inr chunk.size)
      else if chunk.fault.isSome then .error (.inl (.corruptObject id)) else .ok chunk

end Repository

namespace Protocol

/-- The item of an object. -/
def itemOf (object : Id × Payload Id) : Kind × Id := (object.2.kind, object.1)

/-- How IDs are printed, and the canonical bytes of a changeset. -/
structure Format (Id : Type) where
  idText : Id → String
  canonicalBytes : SparseChanges Id → Str

namespace Format
variable (f : Format Id)

/-- `Error`'s text. -/
def errorText : Error Id → String
  | .invalidInput text => "invalid input: " ++ text
  | .missingObject id => "missing object " ++ f.idText id
  | .corruptObject id => "corrupt object " ++ f.idText id
  | .wrongObjectKind id => "object " ++ f.idText id ++ " has the wrong kind"
  | .missingVersion number => "World version " ++ toString number ++ " does not exist"
  | .corruptRepository text => "corrupt repository: " ++ text
  | .layerPublished layer operation => "Layer LayerId(\"" ++ (Bytes.ofText layer.text).getD "" ++
      "\") was published by operation " ++ (Bytes.ofText operation.text).getD ""
  | .missingAgentTrace => "Agent publication requires a context Blob or explicit missing-trace override"
  | .operationIdReused operation =>
      "operation ID " ++ (Bytes.ofText operation.text).getD "" ++ " was already used with different input"
  | .storage text => "storage error: " ++ text ++
      "; if publication was attempted, reopen and retry the same operation ID and input"

/-- `ProtocolError::from`. -/
def native (e : Error Id) : ProtocolError := ⟨e.code, f.errorText e⟩

/-- The refusal of a bounded read: a native error, or the size of an object over the limit. -/
def bounded (id : Id) (limit : ℕ) : Error Id ⊕ ℕ → ProtocolError
  | .inl e => f.native e
  | .inr size => ⟨"object_too_large",
      "object " ++ f.idText id ++ " has " ++ toString size ++ " bytes, exceeding read limit " ++ toString limit⟩

end Format

/-- `duplicate object request`. -/
def duplicate : ProtocolError := ⟨"malformed", "duplicate object request"⟩

/-- `checkpoint_unserved`. -/
def checkpointUnserved : ProtocolError := ⟨"malformed", "checkpoint objects are not served on this path"⟩

/-- `unexpected` of the receiver. -/
def unexpectedMessage : ProtocolError := ⟨"unexpected_message", "message not valid in this session state"⟩

section handler
variable (f : Format Id)

/-- `mismatch`. -/
def idMismatch (claimed stored : Id) : ProtocolError :=
  ⟨"id_mismatch", "claimed " ++ f.idText claimed ++ " but content has ID " ++ f.idText stored⟩

/-- Whether an object is stored. -/
def hasItem (r : Repository Id) : Kind × Id → Except ProtocolError Bool
  | (.blob, id) => (r.hasBlob id).mapError f.native
  | (.tree, id) => (r.hasTree id).mapError f.native
  | (.checkpoint, _) => .error checkpointUnserved

/-- The objects that are not stored, in the order they are asked for. -/
def missingItems (r : Repository Id) : List (Kind × Id) → Except ProtocolError (List (Kind × Id))
  | [] => .ok []
  | item :: items => do
      let found ← hasItem f r item
      let missing ← missingItems r items
      return if found then missing else item :: missing

/-- Stores one object under its own ID. -/
def storeObject (claimed : Id) (payload : Payload Id) (r : Repository Id) : Except ProtocolError (Repository Id) :=
  match payload with
  | .checkpoint _ => .error checkpointUnserved
  | .blob bytes =>
      if objectId (.blob bytes) ≠ claimed then .error (idMismatch f claimed (objectId (.blob bytes)))
      else ((r.putBlob bytes).map Prod.snd).mapError f.native
  | .tree chunk =>
      if chunk.id ≠ claimed then .error (idMismatch f claimed chunk.id)
      else ((r.putTree chunk).map Prod.snd).mapError f.native

/-- Stores one object after the other; the first refusal ends the batch. -/
def storeObjects : List (Id × Payload Id) → Repository Id → Except ProtocolError Unit × Repository Id
  | [], r => (.ok (), r)
  | object :: objects, r =>
      match storeObject f object.1 object.2 r with
      | .error e => (.error e, r)
      | .ok r' => storeObjects objects r'

/-- `Outcome::from_native`. -/
def Outcome.fromNative : AdvanceOutcome Id → Except ProtocolError (Outcome Id)
  | .accepted version =>
      match version.operation with
      | none => .error ⟨"invalid_input", "accepted World lacks operation"⟩
      | some operation => .ok (.accepted version.number version.tree operation)
  | .stale actual => .ok (.stale actual)

/-- The bytes of a stored object. -/
def readItem (r : Repository Id) : Kind × Id → Except ProtocolError (Payload Id)
  | (.blob, id) => ((r.readBlobBounded id MAX_BLOB).map Payload.blob).mapError (f.bounded id MAX_BLOB)
  | (.tree, id) => ((r.treeBytes id MAX_TREE).map Payload.tree).mapError (f.bounded id MAX_TREE)
  | (.checkpoint, _) => .error checkpointUnserved

/-- Reads objects until a frame is full; `size` is what it holds, and the first object always goes in. -/
def readItems (r : Repository Id) (first : Bool) (size : ℕ) :
    List (Kind × Id) → Except ProtocolError (List (Id × Payload Id))
  | [] => .ok []
  | item :: items => do
      let payload ← readItem f r item
      let size := size + (OBJECT_OVERHEAD + payload.len)
      if first = false ∧ MAX_FRAME < size then return []
      else
        let rest ← readItems r false size items
        return (item.2, payload) :: rest

/-- A part of a changeset. -/
def changesetPart (bytes : Str) (offset : ℕ) : Except ProtocolError (Message Id) :=
  if bytes.length < offset then .error ⟨"malformed", "changeset offset is past its end"⟩
  else .ok (.changesetPart bytes.length ((bytes.drop offset).take MAX_CHANGESET_PART))

/-- The answers to messages that only read. -/
def answer (r : Repository Id) : Message Id → Except ProtocolError (Message Id)
  | .want items =>
      if items.Nodup then (missingItems f r items).map .missing else .error duplicate
  | .changeset version offset => do
      let changes ← (r.changeset version).mapError f.native
      changesetPart (f.canonicalBytes changes) offset
  | .resolve version => do
      let world ← (match version with
        | some number => r.versionIn number
        | none => r.headIn).mapError f.native
      return .resolved world.number world.id world.tree
  | .get items =>
      if items.Nodup then (readItems f r true 5 (items.take MAX_OBJECTS)).map .objects else .error duplicate
  | _ => .error unexpectedMessage

/-- `handle`: the answer to one message, and the repository after it. -/
def Receiver.handle (message : Message Id) (r : Repository Id) : Except ProtocolError (Message Id) × Repository Id :=
  match message with
  | .objects objects =>
      if objects.any (fun object => object.2.kind == .checkpoint) then (.error checkpointUnserved, r)
      else
        match storeObjects f objects r with
        | (.ok (), r') => (.ok (.stored objects.length), r')
        | (.error e, r') => (.error e, r')
  | .publish operation expected tree =>
      match r.advanceToTree operation expected tree with
      | .error e => (.error (f.native e), r)
      | .ok (outcome, r') => ((Outcome.fromNative outcome).map .outcome, r')
  | message => (answer f r message, r)

/-- `negotiate`: the first message of a session. -/
def negotiate : Message Id → Except ProtocolError (Message Id)
  | .hello min max =>
      if min ≤ VERSION ∧ VERSION ≤ max then .ok (.helloOk VERSION)
      else .error ⟨"unsupported_version",
        "supported versions: " ++ toString VERSION ++ "..=" ++ toString VERSION⟩
  | _ => .error unexpectedMessage

/-- One message of a session, the first one or a later one. -/
def serveOne (negotiated : Bool) (message : Message Id) (r : Repository Id) :
    Except ProtocolError (Message Id) × Repository Id :=
  if negotiated then Receiver.handle f message r else (negotiate message, r)

/-- `serve`: what a session answers to the messages of a peer, up to the first refusal. -/
def serve (negotiated : Bool) : List (Message Id) → Repository Id →
    List (Except ProtocolError (Message Id)) × Repository Id
  | [], r => ([], r)
  | message :: messages, r =>
      match serveOne f negotiated message r with
      | (.error e, r') => ([.error e], r')
      | (.ok reply, r') =>
          let rest := serve true messages r'
          (.ok reply :: rest.1, rest.2)

end handler

end Protocol

end Javelin
