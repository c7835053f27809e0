import Javelin.Tables

/-! # The World

Reads and writes of the World's tables, and the operations that advance it without a Layer:
`compareAndAdvance` to a stored manifest and `advanceToTree` to a received root.  Both go through
`advanceIn`, which answers a retried operation, refuses a reused one, records the attempt and, if
the expected version is the head, appends a version.

A received root is accepted if the tree difference from the expected version, applied to that
version's tree, derives it again (`receivedChanges`). -/

namespace Javelin

open KeyedList

/-- The largest version number that can be stored. -/
def MAX_VERSION : ℕ := 2 ^ 63 - 1

/-- `VersionNumber::new`. -/
def newVersion {Id : Type} (value : ℕ) : Except (Error Id) VersionNumber := do
  refuse (MAX_VERSION < value) (.invalidInput "World version exceeds storage range")
  return value

def nextNumber {Id : Type} (number : VersionNumber) : Except (Error Id) VersionNumber := do
  refuse (2 ^ 64 ≤ number + 1) (.invalidInput "World version overflow")
  newVersion (number + 1)

namespace WorldVersion
variable {Id : Type}

/-- What `decode_version` checks of a row. -/
def decode (version : WorldVersion Id) : Except (Error Id) (WorldVersion Id) := do
  refuse ((version.number = 0) ≠ (version.operation = none)) (corrupt "invalid version operation")
  return version

end WorldVersion

namespace Chunk
variable {Id : Type}

/-- The objects a chunk names, with the kind each must have. -/
def references (c : Chunk Id) : List (Id × ObjectKind) :=
  (c.items.filter (fun item => item.tag = .child)).map (fun item => (item.id, .tree)) ++
    (c.items.filter (fun item => item.tag ≠ .child)).map (fun item =>
      match item.node with
      | .file entry => (entry.content, .blob)
      | .dir id => (id, .tree))

end Chunk

variable {Id : Type} [DecidableEq Id] [ObjectHash Id]

/-- Tree operations that read and write the `objects` table. -/
abbrev SqlTrees (Id : Type) := Trees (Sql Id) Id

/-- `Trees::new` over a store with the given sink. -/
def Objects.trees (objects : Objects Id) (sink : Sink Id) : SqlTrees Id := Trees.new ⟨objects, sink⟩

namespace Repository
variable (r : Repository Id)

/-! ### Reading -/

/-- The accepted-attempt binding of a version. -/
def bindAttempt (version : WorldVersion Id) : Except (Error Id) Unit :=
  match version.operation with
  | none => return ()
  | some operation =>
      match r.attempts.get? operation with
      | none => throw (corrupt "missing accepted attempt")
      | some attempt =>
          refuse (attempt.accepted = false ∨ attempt.result ≠ version.number ∨
            attempt.expected ≠ version.number - 1) (corrupt "version and operation disagree")

/-- The row of a version. -/
def row (number : VersionNumber) : Option (WorldVersion Id) :=
  r.versions.find? (fun v => v.number = number)

/-- One version row and its accepted-attempt binding, without walking history. -/
def versionIn (number : VersionNumber) : Except (Error Id) (WorldVersion Id) :=
  match r.row number with
  | none => throw (.missingVersion number)
  | some version => do
      let version ← version.decode
      r.bindAttempt version
      return version

/-- The latest World. -/
def headIn : Except (Error Id) (WorldVersion Id) :=
  match r.versions.getLast? with
  | none => throw (corrupt "missing initial World")
  | some version => do
      let version ← version.decode
      r.bindAttempt version
      return version

/-- The rows of a version's changeset. -/
def changeRows (version : VersionNumber) : SortedMap RepoPath (Option (FileEntry Id)) :=
  (r.changes.get? version).getD SortedMap.empty

def changesetIn (version : VersionNumber) : Except (Error Id) (SparseChanges Id) :=
  SparseChanges.ofMap (r.changeRows version)

/-- The stored root of a World version. -/
def treeIn (version : VersionNumber) : Except (Error Id) Id :=
  match r.row version with
  | none => throw (.missingVersion version)
  | some version => return version.tree

/-- Point reads over World snapshots through their derived trees. -/
def index : WorldIndex (Sql Id) Id := WorldIndex.over r.treeIn r.objects.validateEntry

/-- Whether a publication has this ID. -/
def operationExists (operation : OperationId) : Bool := (r.publications.get? operation).isSome

/-- The version an attempt resulted in. -/
def resultVersion (number : VersionNumber) : Except (Error Id) (WorldVersion Id) :=
  match r.versionIn number with
  | .ok version => return version
  | .error _ => throw (corrupt "attempt refers to missing result version")

/-- `Attempt::outcome`. -/
def attemptOutcome (operation : OperationId) (attempt : Attempt Id) :
    Except (Error Id) (AdvanceOutcome Id) := do
  let actual ← r.resultVersion attempt.result
  if attempt.accepted then
    refuse (attempt.result ≠ attempt.expected + 1 ∨ actual.operation ≠ some operation)
      (corrupt "accepted attempt disagrees with World")
    return .accepted actual
  else
    refuse (attempt.result ≤ attempt.expected) (corrupt "invalid stale outcome")
    return .stale attempt.result

/-! ### Writing -/

/-- Appends version `head + 1` with its changeset rows and derived root. -/
def appendVersionIn (head : WorldVersion Id) (operation : OperationId)
    (changes : SparseChanges Id) (tree : Id) :
    Except (Error Id) (WorldVersion Id × Repository Id) := do
  let number ← nextNumber head.number
  let version : WorldVersion Id :=
    ⟨number, versionId (some head.id) tree changes, tree, some operation⟩
  return (version, { r with
    versions := r.versions ++ [version]
    changes := r.changes.insert number changes.entries })

/-- Checks the content of every entry a changeset adds. -/
def checkContents (changes : SparseChanges Id) : TreesM (Sql Id) Id Unit := fun t => do
  t.store.objects.validateEntries (changes.entries.toList.filterMap Prod.snd)
  return ((), t)

/-- The changes from the tree `base` to a received root, which must be what they derive. -/
def receivedChanges (base root : Id) : TreesM (Sql Id) Id (SparseChanges Id) := do
  let changes ← Trees.diff base root
  checkContents changes
  let derived ← Trees.apply base changes
  if derived ≠ root then throw (.invalidInput "tree is not in canonical form")
  else return changes

/-- What is known of a candidate root before the attempt is recorded. -/
def candidateChanges (expected : VersionNumber) (root : Id) (received : Bool) :
    TreesM (Sql Id) Id (Option (SparseChanges Id)) :=
  if received then do
    let base ← r.treeIn expected
    let changes ← receivedChanges base root
    return some changes
  else return none

/-- The changeset of an accepted candidate. -/
def acceptedChanges (head : WorldVersion Id) (root : Id) :
    Option (SparseChanges Id) → TreesM (Sql Id) Id (SparseChanges Id)
  | some changes => return changes
  | none => Trees.diff head.tree root

/-- The version an attempt results in. -/
def attemptResult (head : WorldVersion Id) (expected : VersionNumber) :
    Except (Error Id) VersionNumber :=
  if expected = head.number then nextNumber head.number else return head.number

/-- The branch of `advance_in` for an operation that is not recorded yet. -/
def advanceNew (head : WorldVersion Id) (operation : OperationId) (expected : VersionNumber)
    (root : Id) (received : Bool) : Except (Error Id) (AdvanceOutcome Id × Repository Id) := do
  refuse (head.number < expected) (.missingVersion expected)
  let (changes, t) ← r.candidateChanges expected root received (r.objects.trees .write)
  let result ← attemptResult head expected
  let attempts := r.attempts.insert operation ⟨expected, some root, expected = head.number, result⟩
  if expected ≠ head.number then
    return (.stale result, { r with objects := t.store.objects, attempts := attempts })
  else do
    let (changes, t) ← acceptedChanges head root changes t
    let (version, r) ← { r with objects := t.store.objects, attempts := attempts }.appendVersionIn
      head operation changes root
    return (.accepted version, r)

/-- Records a World attempt for the candidate `root`.  A `received` root is verified first. -/
def advanceIn (operation : OperationId) (expected : VersionNumber) (root : Id) (received : Bool) :
    Except (Error Id) (AdvanceOutcome Id × Repository Id) := do
  let head ← r.headIn
  refuse (r.operationExists operation = true) (.operationIdReused operation)
  match r.attempts.get? operation with
  | some attempt => do
      refuse (attempt.expected ≠ expected ∨ attempt.tree ≠ some root) (.operationIdReused operation)
      let outcome ← r.attemptOutcome operation attempt
      return (outcome, r)
  | none => r.advanceNew head operation expected root received

/-! ### Operations -/

/-- `Repository::init` of a new directory, with the identity it draws. -/
def initial (identity : Id) : Repository Id where
  identity := identity
  objects := Objects.add [] (.tree Chunk.emptyLeaf)
  versions := [⟨0, versionId none emptyId SparseChanges.empty, emptyId, none⟩]
  changes := SortedMap.empty
  attempts := SortedMap.empty
  layerHeads := SortedMap.empty
  layerAttempts := SortedMap.empty
  stackRows := SortedMap.empty
  publications := SortedMap.empty
  layerPaths := SortedMap.empty
  blame := SortedMap.empty

/-- Publishes a stored manifest as the next version if `expected` is the head. -/
def compareAndAdvance (operation : OperationId) (expected : VersionNumber) (manifest : Id) :
    Except (Error Id) (AdvanceOutcome Id × Repository Id) := do
  refuse (r.operationExists operation = true) (.operationIdReused operation)
  let candidate ← r.objects.manifest manifest
  let (root, t) ← Trees.build candidate (r.objects.trees .write)
  { r with objects := t.store.objects }.advanceIn operation expected root false

/-- `compareAndAdvance` to a received tree. -/
def advanceToTree (operation : OperationId) (expected : VersionNumber) (tree : Id) :
    Except (Error Id) (AdvanceOutcome Id × Repository Id) :=
  r.advanceIn operation expected tree true

/-- Stores one object. -/
def store (object : Object Id) : Except (Error Id) (Id × Repository Id) := do
  let (id, objects) ← r.objects.insert object
  return (id, { r with objects := objects })

def putBlob (bytes : Str) : Except (Error Id) (Id × Repository Id) := r.store (.blob bytes)

def putManifest (manifest : Manifest Id) : Except (Error Id) (Id × Repository Id) := do
  r.objects.validateEntries (manifest.entries.toList.map Prod.snd)
  r.store (.manifest manifest)

/-- Validates a snapshot's contents and stores its tree; returns the root. -/
def putSnapshot (manifest : Manifest Id) : Except (Error Id) (Id × Repository Id) := do
  r.objects.validateEntries (manifest.entries.toList.map Prod.snd)
  let (root, t) ← Trees.build manifest (r.objects.trees .write)
  return (root, { r with objects := t.store.objects })

/-- The object a chunk names is stored with the right kind. -/
def checkReference (reference : Id × ObjectKind) : Except (Error Id) Unit :=
  match r.objects.lookup reference.1 with
  | none => throw (.missingObject reference.1)
  | some object => refuse (object.kind ≠ reference.2) (.wrongObjectKind reference.1)

/-- Stores one received tree chunk. -/
def putTree (chunk : Chunk Id) : Except (Error Id) (Id × Repository Id) := do
  let chunk ← chunk.decode
  chunk.references.forM r.checkReference
  r.store (.tree chunk)

end Repository

end Javelin
