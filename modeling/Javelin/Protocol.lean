import Javelin.Objects
import Javelin.Sessions

/-! # Protocol messages

The messages a push and a fetch exchange, and the fixed limits.  An object on the wire is a
`Payload`: the codec refuses a tree that does not decode, so a tree is carried parsed.  A message
of any other kind is `other`. -/

namespace Javelin

namespace Protocol

/-- `codec::VERSION`. -/
def VERSION : ℕ := 2
/-- Largest frame. -/
def MAX_FRAME : ℕ := 16 * 2 ^ 20
/-- Largest blob. -/
def MAX_BLOB : ℕ := 8 * 2 ^ 20
/-- One tree chunk, the native decoder's bound. -/
def MAX_TREE : ℕ := MAX_CHUNK
/-- One Layer checkpoint object. -/
def MAX_CHECKPOINT : ℕ := MAX_BLOB
/-- Most objects in one frame. -/
def MAX_OBJECTS : ℕ := 1024
/-- Most IDs in one `Want` or `Get`. -/
def MAX_WANT : ℕ := 4096
/-- Most bytes of one `ChangesetPart`. -/
def MAX_CHANGESET_PART : ℕ := MAX_BLOB
/-- Most bytes of one version's changeset that a fetch will hash. -/
def MAX_CHANGESET : ℕ := 2 ^ 30
/-- Most named paths one fetch expands. -/
def MAX_FETCH_PATHS : ℕ := 2 ^ 20
/-- Encoded bytes of one `Objects` item besides its payload. -/
def OBJECT_OVERHEAD : ℕ := 37

/-- A refusal with a stable code. -/
structure ProtocolError where
  code : String
  detail : String
deriving DecidableEq

/-- `unexpected`. -/
def unexpected : ProtocolError := ⟨"unexpected_message", "unexpected reply from receiver"⟩

/-- What an object is transferred as. -/
inductive Kind where
  | blob
  | checkpoint
  | tree
deriving DecidableEq

/-- The bytes of an object; those of a tree decode. -/
inductive Payload (Id : Type) where
  | blob (bytes : Str)
  | checkpoint (bytes : Str)
  | tree (chunk : Chunk Id)
deriving DecidableEq

namespace Payload
variable {Id : Type}

def kind : Payload Id → Kind
  | blob _ => .blob
  | checkpoint _ => .checkpoint
  | tree _ => .tree

/-- Bytes of the payload. -/
def len : Payload Id → ℕ
  | blob bytes => bytes.length
  | checkpoint bytes => bytes.length
  | tree chunk => chunk.size

end Payload

/-- What `Publish` answers. -/
inductive Outcome (Id : Type) where
  | accepted (number : VersionNumber) (tree : Id) (operation : OperationId)
  | stale (actual : VersionNumber)
deriving DecidableEq

inductive Message (Id : Type) where
  | hello (min max : ℕ)
  | helloOk (version : ℕ)
  /-- Push: which of these does the receiver lack? -/
  | want (items : List (Kind × Id))
  | missing (items : List (Kind × Id))
  /-- Fetch: send these objects. -/
  | get (items : List (Kind × Id))
  /-- Objects under the IDs they are claimed to have. -/
  | objects (objects : List (Id × Payload Id))
  | stored (count : ℕ)
  | publish (operation : OperationId) (expected : VersionNumber) (tree : Id)
  | outcome (outcome : Outcome Id)
  /-- Fetch: the version to read, or the head. -/
  | resolve (version : Option VersionNumber)
  | resolved (number : VersionNumber) (id tree : Id)
  /-- Fetch: the canonical changeset of a version, from byte `offset`. -/
  | changeset (version : VersionNumber) (offset : ℕ)
  /-- A part of the canonical changeset, whose whole length is `total`. -/
  | changesetPart (total : ℕ) (bytes : Str)
  | other

/-- A peer that answers messages. -/
abbrev Server (Id σ : Type) := Sessions.Server (Message Id) (Message Id) ProtocolError σ

/-- Computations of a session with such a peer. -/
abbrev SessionM (σ : Type) := Sessions.SessionM σ ProtocolError

end Protocol

end Javelin
