import Javelin.Receiving
import Javelin.VerifyChain

/-! # The fetch

`fetch` resolves a version, verifies its root against the chain of version IDs, and reads the tree from the root down,
one level in a round (`readTree`); the blobs come last.  With a path it reads only the chunks on the way to the path
and those below it.  A received object is stored only under its own ID, and the walk follows at most `MAX_FETCH_PATHS`
names and references.

Directories are lists of components.  The loops have a bound. -/

namespace Javelin

open KeyedList Sessions

namespace Protocol

/-- Where fetched objects go: the chunks of a `MemoryStore` and the blobs of a map. -/
structure Held (Id : Type) where
  trees : List (Id × Chunk Id)
  blobs : List (Id × Str)

/-- What a pending chunk contributes: everything below it, or what is on the way to a path, which goes on with `next`
and `rest`. -/
inductive Want where
  | all (dir : List Name)
  | path (dir : List Name) (next : Name) (rest : List Name)
deriving DecidableEq

/-- What a parent says about a child chunk. -/
structure Link where
  level : ℕ
  last : Name
deriving DecidableEq

/-- A chunk to read, and the parent's claim, which a directory root does not have. -/
structure Pending (Id : Type) where
  id : Id
  want : Want
  link : Option Link
deriving DecidableEq

/-- What the walk of one chunk adds. -/
structure Walked (Id : Type) where
  next : List (Pending Id)
  files : List (RepoPath × FileEntry Id)
  blobs : List Id
  named : ℕ

/-- What the walk has so far. -/
structure Walk (Id : Type) where
  next : List (Pending Id)
  files : SortedMap RepoPath (FileEntry Id)
  blobs : List Id
  named : ℕ

/-- The fetched version and its files. -/
structure Fetched (Id : Type) where
  number : VersionNumber
  id : Id
  tree : Id
  files : SortedMap RepoPath (FileEntry Id)
  treesReceived : ℕ
  blobsReceived : ℕ

/-- `fetch names more than {MAX_FETCH_PATHS} paths`. -/
def tooManyPaths : ProtocolError :=
  ⟨"limit_exceeded", "fetch names more than " ++ toString MAX_FETCH_PATHS ++ " paths"⟩

/-- A failure of the client ends the session. -/
def lift {σ α : Type} : Except ProtocolError α → SessionM σ α
  | .ok a => pure a
  | .error e => throw e

section walk
variable {Id : Type}

def Walked.append (w w' : Walked Id) : Walked Id :=
  ⟨w.next ++ w'.next, w.files ++ w'.files, w.blobs ++ w'.blobs, w.named + w'.named⟩

/-- One entry of a directory, with `rest` still to go. -/
def follow (dir rest : List Name) (name : Name) (node : Node Id) : Except ProtocolError (Walked Id) :=
  let path : RepoPath := ⟨dir ++ [name]⟩
  if MAX_PATH < path.asStr.length ∨ MAX_DEPTH ≤ path.names.length - 1 then
    .error ⟨"limit_exceeded", "tree path exceeds path limits"⟩
  else match node, rest with
    | .file entry, [] => .ok ⟨[], [(path, entry)], [entry.content], 1⟩
    | .file _, _ :: _ => .ok ⟨[], [], [], 1⟩
    | .dir id, [] => .ok ⟨[⟨id, .all path.names, none⟩], [], [], 1⟩
    | .dir id, next :: rest => .ok ⟨[⟨id, .path path.names next rest, none⟩], [], [], 1⟩

/-- One entry of a leaf chunk, if it is wanted. -/
def visit (want : Want) (name : Name) (node : Node Id) : Except ProtocolError (Walked Id) :=
  match want with
  | .all dir => follow dir [] name node
  | .path dir next rest => if next = name then follow dir rest name node else .ok ⟨[], [], [], 0⟩

/-- The entries of a leaf chunk. -/
def walkEntries (want : Want) : List (Name × Node Id) → Except ProtocolError (Walked Id)
  | [] => .ok ⟨[], [], [], 0⟩
  | (name, node) :: entries => do
      let first ← visit want name node
      let others ← walkEntries want entries
      return first.append others

/-- The references of a chunk above the leaves. -/
def Want.links (want : Want) (chunk : Chunk Id) : List (Name × Id) :=
  match want with
  | .all _ => chunk.childLinks
  | .path _ next _ => (chunk.childFor next).toList

/-- `walk`: what one chunk adds, and how many names or references of it were followed. -/
def walk (chunk : Chunk Id) (want : Want) : Except ProtocolError (Walked Id) :=
  if 0 < chunk.level then
    let next := (want.links chunk).map (fun link => ⟨link.2, want, some ⟨chunk.level - 1, link.1⟩⟩)
    .ok ⟨next, [], [], next.length⟩
  else walkEntries want chunk.entries

end walk

variable {Id : Type} [LinearOrder Id] [Encoding Id]

section fetch
variable {σ : Type} (h : Hashes Id) (f : Format Id) (server : Server Id σ)

/-- `Store::load`. -/
def Held.load (held : Held Id) (id : Id) : Except (Error Id) (Chunk Id) :=
  match held.trees.lookup id with
  | some chunk => .ok chunk
  | none => .error (.missingObject id)

/-- `Store::save` and `Blobs::put`. -/
def Held.put (held : Held Id) (id : Id) : Payload Id → Held Id
  | .tree chunk => { held with trees := (id, chunk) :: held.trees }
  | .blob bytes => { held with blobs := (id, bytes) :: held.blobs }
  | .checkpoint _ => held

/-- The ID of the bytes; checkpoints are never asked for. -/
def Payload.id? : Payload Id → Option Id
  | .tree chunk => some chunk.id
  | .blob bytes => some (objectId (.blob bytes))
  | .checkpoint _ => none

/-- Stores the objects of a reply, each of them the one that was asked for. -/
def takeObjects (held : Held Id) : List (Id × Payload Id) → List (Kind × Id) → Except ProtocolError (Held Id)
  | (id, payload) :: objects, wanted :: request =>
      if (payload.kind, id) ≠ wanted then .error unexpected
      else if payload.id? ≠ some id then
        .error ⟨"id_mismatch", "received bytes do not match " ++ f.idText id⟩
      else takeObjects (held.put id payload) objects request
  | _, _ => .ok held

/-- `get`: asks for objects, and for the rest again when a reply answers only the first of them. -/
def get (kind : Kind) : ℕ → List Id → Held Id → SessionM σ (Held Id)
  | 0, _, _ => stuck
  | bound + 1, ids, held =>
      if ids.isEmpty then return held
      else do
        let request := (ids.take MAX_WANT).map (fun id => (kind, id))
        match ← call server (.get request) with
        | .objects objects =>
            if objects = [] ∨ request.length < objects.length then throw unexpected
            else do
              let held ← lift (takeObjects f held objects request)
              get kind bound (ids.drop objects.length) held
        | _ => throw unexpected

/-- Reads one pending chunk. -/
def readOne (held : Held Id) (w : Walk Id) (p : Pending Id) : Except ProtocolError (Walk Id) := do
  let chunk ← (held.load p.id >>= Chunk.decode).mapError f.native
  if p.link.any (fun link => decide (chunk.level ≠ link.level ∨ chunk.last ≠ link.last)) then
    throw ⟨"malformed", "chunk " ++ f.idText p.id ++ " does not match the parent that names it"⟩
  else do
    let new ← walk chunk p.want
    if MAX_FETCH_PATHS < w.named + new.named then throw tooManyPaths
    else return ⟨w.next ++ new.next, new.files.foldl (fun files file => files.insert file.1 file.2) w.files,
      w.blobs ++ new.blobs, w.named + new.named⟩

/-- The pending chunks that are not held, each once. -/
def missingTrees (held : Held Id) (pending : List (Pending Id)) : List Id :=
  (pending.map Pending.id).eraseDups.filter (fun id => (held.trees.lookup id).isNone)

/-- The blobs that are not held, each once. -/
def missingBlobs (held : Held Id) (blobs : List Id) : List Id :=
  blobs.eraseDups.filter (fun id => (held.blobs.lookup id).isNone)

/-- The loop of `fetch`: one level of the tree in a round. -/
def readTree : ℕ → Held Id → Walk Id → ℕ → SessionM σ (Walk Id × Held Id × ℕ)
  | 0, _, _, _ => stuck
  | bound + 1, held, w, received =>
      if w.next.isEmpty then return (w, held, received)
      else do
        let pending := w.next.eraseDups
        let missing := missingTrees held pending
        let held ← get f server .tree (missing.length + 1) missing held
        let w ← lift (pending.foldlM (readOne f held) { w with next := [] })
        readTree bound held w (received + missing.length)

/-- Where the walk starts. -/
def start : Option {path : RepoPath // path.Valid} → Want
  | none => .all []
  | some ⟨⟨[]⟩, hvalid⟩ => absurd rfl hvalid.1
  | some ⟨⟨name :: rest⟩, _⟩ => .path [] name rest

/-- The tree and the blobs of a version whose root is verified. -/
def fetchFiles (held : Held Id) (number : VersionNumber) (id tree : Id)
    (path : Option {path : RepoPath // path.Valid}) : SessionM σ (Fetched Id × Held Id) := do
  let (w, held, received) ← readTree f server (MAX_FETCH_PATHS + 2) held
    ⟨[⟨tree, start path, none⟩], SortedMap.empty, [], 0⟩ 0
  let missing := missingBlobs held w.blobs
  let held ← get f server .blob (missing.length + 1) missing held
  return (⟨number, id, tree, w.files, received, missing.length⟩, held)

/-- `fetch`. -/
def fetch (held : Held Id) (version : Option VersionNumber) (path : Option {path : RepoPath // path.Valid}) :
    SessionM σ (Fetched Id × Held Id) := do
  match ← call server (.hello VERSION VERSION) with
  | .helloOk v =>
      if v ≠ VERSION then throw unexpected
      else do
        match ← call server (.resolve version) with
        | .resolved number id tree =>
            if version.all (fun v => v == number) then do
              verifyChain h server (MAX_CHANGESET + 1) number id tree
              fetchFiles f server held number id tree path
            else throw unexpected
        | _ => throw unexpected
  | _ => throw unexpected

end fetch

end Protocol

end Javelin
