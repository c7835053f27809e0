import Javelin.World
import Mathlib.Data.List.Dedup
import Mathlib.Data.List.Sort

/-! # Checkpoints

A checkpoint is an immutable object: a base World version, a delta normalized against it, the
checkpoints stacked into it and the blob that says who produced it.  `prepareCheckpoint` stores
one; `checkpointIn` reads one and verifies it again; `readDeep` also verifies the checkpoints
stacked into it.

Provenance, Stack bindings and receipts are blobs whose bytes `Encoding` gives.  Where the source
puts an inner error's text into a new error, the model keeps only the text in front of it. -/

namespace Javelin

open KeyedList

/-- The bytes of the records that are stored as blobs: decoding gives back what was encoded. -/
class Encoding (Id : Type) extends ObjectHash Id where
  provenanceBytes : Provenance → Str
  decodeProvenance : Str → Option Provenance
  decodeProvenance_bytes : ∀ p, decodeProvenance (provenanceBytes p) = some p
  bindingBytes : StackBinding Id → Str
  storedResolution : Str → Option (Option Id)
  storedResolution_bytes : ∀ b, storedResolution (bindingBytes b) = some b.resolution
  receiptBytes : PublicationReceipt Id → Str

export Encoding (provenanceBytes decodeProvenance bindingBytes storedResolution receiptBytes)

/-! ### Provenance -/

namespace Provenance
variable {Id : Type}

def MAX_FIELD : ℕ := 256

/-- `char::is_control`: the general category Cc. -/
def isControl (c : Char) : Bool := c.val < 32 || (127 ≤ c.val && c.val < 160)

/-- One field is 1 to 256 bytes without control characters. -/
def checkField (name : String) : Option String → Except (Error Id) Unit
  | none => return ()
  | some value => refuse (value = "" ∨ MAX_FIELD < value.utf8ByteSize ∨ value.toList.any isControl = true)
      (.invalidInput ("provenance " ++ name ++ " must be 1..256 bytes without control characters"))

/-- A human has no agent name. -/
def new (actor : Actor) (agent session reference : Option String) : Except (Error Id) Provenance := do
  checkField "agent" agent
  checkField "session" session
  checkField "reference" reference
  refuse (actor = .human ∧ agent.isSome = true) (.invalidInput "a human actor has no agent name")
  return ⟨actor, agent, session, reference⟩

end Provenance

/-- An error with a text in front. -/
def rewrap {Id α : Type} (text : String) : Except (Error Id) α → Except (Error Id) α
  | .ok a => .ok a
  | .error _ => .error (corrupt text)

theorem rewrap_eq_ok {Id α : Type} {text : String} {x : Except (Error Id) α} {a : α} :
    rewrap text x = .ok a ↔ x = .ok a := by
  cases x with
  | ok b => exact Iff.rfl
  | error e =>
      constructor
      · intro h
        cases h
      · intro h
        cases h

section model
variable {Id : Type} [LinearOrder Id] [Encoding Id]

namespace Objects

/-- Stores a declared provenance. -/
def storeProvenance (objects : Objects Id) : Option Provenance → Except (Error Id) (Option Id × Objects Id)
  | none => return (none, objects)
  | some provenance => do
      let (id, objects) ← objects.insert (.blob (provenanceBytes Id provenance))
      return (some id, objects)

/-- `Provenance::decode` of a stored blob. -/
def readProvenance (objects : Objects Id) (id : Id) : Except (Error Id) Provenance := do
  let bytes ← objects.readBlob id
  match decodeProvenance Id bytes with
  | none => throw (.corruptObject id)
  | some value =>
      match (Provenance.new value.actor value.agent value.session value.reference :
          Except (Error Id) Provenance) with
      | .error _ => throw (.corruptObject id)
      | .ok value => do
          refuse (provenanceBytes Id value ≠ bytes) (.corruptObject id)
          return value

end Objects

/-- Sorted, without repetitions. -/
def sortDedup (l : List Id) : List Id := (l.mergeSort (fun a b => decide (a ≤ b))).dedup

/-- A frozen graph read. -/
structure LayerCheckpoint (Id : Type) where
  id : Id
  base : LayerBase Id
  changes : SparseChanges Id
  sources : List Id
  provenance : Option Id

/-- A stored candidate head: its checkpoint, exact changes and provenance blob. -/
structure LayerCandidate (Id : Type) where
  id : Id
  changes : SparseChanges Id
  provenance : Option Id

namespace Repository
variable (r : Repository Id)

def validateBase (base : LayerBase Id) : Except (Error Id) Unit := do
  refuse (r.identity ≠ base.repository) (.invalidInput "foreign Layer base")
  let version ← r.versionIn base.version
  refuse (version.id ≠ base.world) (corrupt "Layer base disagrees with exact World")

/-- `normalize` over an index that only reads. -/
def normalizeIn (base : VersionNumber) (changes : SparseChanges Id) :
    Except (Error Id) (SparseChanges Id) := do
  let (changes, _) ← r.index.normalize base changes (r.objects.trees .verify)
  return changes

/-- Stores the normalized checkpoint, with its provenance blob when declared. -/
def prepareCheckpoint (base : LayerBase Id) (changes : SparseChanges Id) (sources : List Id)
    (provenance : Option Provenance) : Except (Error Id) (LayerCandidate Id × Repository Id) := do
  r.validateBase base
  let changes ← r.normalizeIn base.version changes
  let (provenance, objects) ← r.objects.storeProvenance provenance
  let (id, objects) ← objects.insert (.checkpoint ⟨base, changes, sources, provenance⟩)
  return (⟨id, changes, provenance⟩, { r with objects := objects })

/-- The provenance of a checkpoint reads back. -/
def checkProvenance : Option Id → Except (Error Id) Unit
  | none => return ()
  | some provenance => do
      let _ ← rewrap "invalid checkpoint provenance" (r.objects.readProvenance provenance)
      return ()

/-- One checkpoint, verified. -/
def checkpointNode (id : Id) : Except (Error Id) (LayerCheckpoint Id) := do
  let encoded ← r.objects.readCheckpoint id
  refuse (MAX_VERSION < encoded.base.version) (.corruptObject id)
  rewrap "invalid checkpoint base" (r.validateBase encoded.base)
  let normalized ← rewrap "invalid checkpoint graph" (r.normalizeIn encoded.base.version encoded.changes)
  refuse (normalized ≠ encoded.changes ∨ ¬ encoded.sources.IsChain (· < ·)) (.corruptObject id)
  r.checkProvenance encoded.provenance
  return ⟨id, encoded.base, encoded.changes, encoded.sources, encoded.provenance⟩

/-- Reads and verifies one checkpoint without walking its Stack ancestry. -/
def checkpointIn (id : Id) : Except (Error Id) (LayerCheckpoint Id) := r.checkpointNode id

/-- Reads a checkpoint below the ones in `visiting`, and verifies its Stack ancestry first to last. -/
def readBelow : ℕ → List Id → Id → Except (Error Id) (LayerCheckpoint Id)
  | 0, _, _ => throw (corrupt "cyclic Stack ancestry")
  | depth + 1, visiting, id => do
      refuse (id ∈ visiting) (corrupt "cyclic Stack ancestry")
      let node ← r.checkpointNode id
      node.sources.forM (fun source => do
        let _ ← readBelow depth (id :: visiting) source
        return ())
      return node

/-- Reads a checkpoint and its complete Stack ancestry.  No path is longer than the table. -/
def readDeep (id : Id) : Except (Error Id) (LayerCheckpoint Id) := r.readBelow (r.objects.length + 1) [] id

end Repository

end model

end Javelin
