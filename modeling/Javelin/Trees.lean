import Javelin.Store

/-! # Tree operations

The operations of `Trees` as the source computes them: `apply` and `build` over `applyDir`,
`update`, `updateLevel` and `buildLevel`; the readers `find`, `lookup`, `entries` and
`filesUnder`; `diff`, and `intersections`.

A loop is a structural recursion on a bound it never uses up.  A descent follows chunk levels,
which `child` makes decrease by one; recursion into directories is bounded by `MAX_DEPTH`, since
a changed path has at most that many components and `joined` refuses to walk deeper; a run of
`recut` moves to a later chunk each time, so it is shorter than the number of readable chunks.
Paths are component lists.  An edited level is `mergeEdits`. -/

namespace Javelin

open KeyedList

/-- A change below some directory: the components and the new entry. -/
abbrev Change (Id : Type) := List Name × Option (FileEntry Id)
/-- Edits of one level: names with the new item, or `none` for removal. -/
abbrev Edits (Id : Type) := List (Name × Option (Item Id))
/-- A name and its node before and after. -/
abbrev ItemDiff (Id : Type) := Name × Option (Node Id) × Option (Node Id)

/-! ### Grouping by first component -/

/-- What the paths below one name carry: at the name itself, and deeper. -/
structure Group (α : Type) where
  exact : Option α
  deeper : List (List Name × α)

namespace Group
variable {α : Type}

def empty : Group α := ⟨none, []⟩

/-- Adds what a path with the remaining components `rest` carries. -/
def add (g : Group α) (rest : List Name) (a : α) : Group α :=
  match rest with
  | [] => { g with exact := some a }
  | rest => { g with deeper := g.deeper ++ [(rest, a)] }

end Group

/-- The paths by their first component. -/
def groups {α : Type} (paths : List (List Name × α)) : SortedMap Name (Group α) :=
  paths.foldl (fun m p =>
    match p.1 with
    | [] => m
    | name :: rest => m.insert name (((m.get? name).getD .empty).add rest p.2)) SortedMap.empty

namespace Trees
variable {σ Id : Type} [DecidableEq Id] [Hashing Id] [Store σ Id]

/-! ### Finding entries -/

/-- Whether `seek` passes over a chunk or item with this last name. -/
def isBefore (name : Name) (after : Bool) (last : Name) : Bool :=
  if after then decide (last ≤ name) else decide (last < name)

/-- The loop of `seek`, with the level of `chunk` as its bound.  A chunk above the leaves has
items, so only `after` can leave nothing to choose. -/
def descend (level : ℕ) (name : Name) (after : Bool) :
    ℕ → Chunk Id → Bool → TreesM σ Id (Option (Chunk Id × Bool))
  | bound + 1, chunk, rightmost =>
      if level < chunk.level then
        match choose (fun item => isBefore name after item.name) after chunk.items with
        | some (item, last) => do
            descend level name after bound (← child chunk item true) (rightmost && last)
        | none => return none
      else found chunk rightmost
  | 0, chunk, rightmost => found chunk rightmost
where
  /-- The chunk the descent ended in, if it is the one asked for. -/
  found (chunk : Chunk Id) (rightmost : Bool) : TreesM σ Id (Option (Chunk Id × Bool)) :=
    if chunk.level ≠ level ∨ (after = true ∧ (chunk.items = [] ∨ chunk.last ≤ name)) then
      return none
    else return some (chunk, rightmost)

/-- The chunk at `level` holding `name`: the first whose last name is at least `name` (greater
when `after`); otherwise, unless `after`, the rightmost.  Also reports whether it is the
rightmost chunk at its level. -/
def seek (root : Id) (level : ℕ) (name : Name) (after : Bool) :
    TreesM σ Id (Option (Chunk Id × Bool)) := do
  let chunk ← get root
  descend level name after chunk.level chunk true

/-- The entry named `name` directly inside directory `dir`. -/
def find (dir : Id) (name : Name) : TreesM σ Id (Option (Node Id)) := do
  match ← seek dir 0 name false with
  | none => return none
  | some (leaf, _) => return (KeyedList.lookup Item.name name leaf.items).map Item.node

/-- `find` in a directory that may be absent. -/
def findIn (dir : Option Id) (name : Name) : TreesM σ Id (Option (Node Id)) :=
  match dir with
  | some dir => find dir name
  | none => return none

/-- The loop of `lookup` over the components. -/
def lookupNames : Id → List Name → TreesM σ Id (Option (Node Id))
  | _, [] => return none
  | dir, name :: names => do
      match ← find dir name with
      | some node =>
          if names = [] then return some node
          else match node with
            | .dir id => lookupNames id names
            | .file _ => return none
      | none => return none

/-- The node at `path`, if any. -/
def lookup (root : Id) (path : RepoPath) : TreesM σ Id (Option (Node Id)) :=
  lookupNames root path.names

/-! ### Deriving trees -/

/-- The item that names a child chunk. -/
def summary (chunk : Chunk Id) : TreesM σ Id (Item Id) := do
  let id ← put chunk
  return ⟨chunk.last, .child, id⟩

/-- The loop of `build_level` below a chunk with one child: down to the first level with more
than one item, or the leaves. -/
def shrink : ℕ → Id → TreesM σ Id (Option Id)
  | 0, root => throw (.corruptObject root)
  | bound + 1, root => do
      let chunk ← get root
      match chunk.items with
      | [item] => if chunk.level = 0 then return some root else shrink bound item.id
      | _ => return some root

/-- The root over the only chunk of a level. -/
def top (chunk : Chunk Id) : TreesM σ Id (Option Id) :=
  match chunk.items with
  | [item] =>
      if 0 < chunk.level then fun t => shrink t.len item.id t
      else do return some (← put chunk)
  | _ => do return some (← put chunk)

/-- `build_level`, with the number of levels left as its bound. -/
def buildLevels : ℕ → ℕ → List (Item Id) → TreesM σ Id (Option Id)
  | 0, _, _ => throw (.invalidInput "directory tree too high")
  | bound + 1, level, items =>
      let (done, cut) := (Chunker.new level).pushAll items
      match done ++ cut.finish.toList with
      | [] => return none
      | [chunk] => top chunk
      | chunks => do buildLevels bound (level + 1) (← chunks.mapM summary)

/-- Cuts a complete level and builds upward until one chunk remains. -/
def buildLevel (level : ℕ) (items : List (Item Id)) : TreesM σ Id (Option Id) :=
  buildLevels (MAX_LEVEL + 1 - level) level items

/-- What one run of re-cutting leaves: the edits past it, the open chunker, the items of the new
chunks and the edits one level up. -/
structure Recut (Id : Type) where
  edits : Edits Id
  cut : Chunker Id
  added : List (Item Id)
  out : SortedMap Name (Option (Item Id))

/-- Re-cuts `chunk` with the edits it holds. -/
def recutChunk (chunk : Chunk Id) (rightmost : Bool) (run : Recut Id) : TreesM σ Id (Recut Id) := do
  let here := fun e : Name × Option (Item Id) => rightmost || decide (e.1 ≤ chunk.last)
  let items := mergeEdits Item.name chunk.items (run.edits.takeWhile here)
  let (done, cut) := run.cut.pushAll items
  let added ← done.mapM summary
  return ⟨run.edits.dropWhile here, cut, run.added ++ added, run.out.insert chunk.last none⟩

/-- The inner loop of `update_level`: chunk after chunk until a new boundary meets an old one. -/
def recut (root : Id) (level : ℕ) :
    ℕ → Chunk Id → Bool → Recut Id → TreesM σ Id (Recut Id)
  | 0, _, _, _ => throw (.corruptObject root)
  | bound + 1, chunk, rightmost, run => do
      let run ← recutChunk chunk rightmost run
      if rightmost || run.cut.isEmpty then return run
      else match ← seek root level chunk.last true with
        | some (chunk, rightmost) => recut root level bound chunk rightmost run
        | none => throw (.corruptObject root)

/-- The outer loop of `update_level`; every run consumes an edit. -/
def recutAll (root : Id) (level : ℕ) :
    ℕ → Edits Id → SortedMap Name (Option (Item Id)) →
      TreesM σ Id (SortedMap Name (Option (Item Id)))
  | _, [], out => return out
  | 0, _ :: _, _ => throw (.corruptObject root)
  | bound + 1, edit :: edits, out => do
      match ← seek root level edit.1 false with
      | none => throw (.corruptObject root)
      | some (chunk, rightmost) =>
          let run ← fun t => recut root level t.len chunk rightmost
            ⟨edit :: edits, Chunker.new level, [], out⟩ t
          let added ← run.cut.finish.toList.mapM summary
          let out := (run.added ++ added).foldl (fun out item => out.insert item.name (some item)) run.out
          recutAll root level bound run.edits out

/-- Re-cuts the chunks at `level` that `edits` touch.  Returns the matching edits one level up. -/
def updateLevel (root : Id) (level : ℕ) (edits : Edits Id) : TreesM σ Id (Edits Id) := do
  let out ← recutAll root level edits.length edits SortedMap.empty
  return out.toList

/-- The levels below the root, from the leaves up. -/
def updateLevels (root : Id) : List ℕ → Edits Id → TreesM σ Id (Edits Id)
  | [], edits => return edits
  | level :: levels, edits => do updateLevels root levels (← updateLevel root level edits)

/-- Applies sorted name edits to one directory's prolly tree, re-cutting only the chunks around
each edit.  `none` means the directory is now empty. -/
def update (dir : Option Id) (edits : Edits Id) : TreesM σ Id (Option Id) :=
  match dir with
  | none => buildLevel 0 (edits.filterMap Prod.snd)
  | some root => do
      let chunk ← get root
      if chunk.items = [] then buildLevel 0 (edits.filterMap Prod.snd)
      else
        let edits ← updateLevels root (List.range chunk.level) edits
        buildLevel chunk.level (mergeEdits Item.name chunk.items edits)

/-- The node of a name from its file and its subdirectory. -/
def nextNode (file : Option (FileEntry Id)) (sub : Option Id) : TreesM σ Id (Option (Node Id)) :=
  match file, sub with
  | some _, some _ => throw (.invalidInput "file and descendant paths collide")
  | some file, none => return some (.file file)
  | none, some dir => return some (.dir dir)
  | none, none => return none

/-- The subdirectory of a name after the changes below it; `into` applies them. -/
def applyDeeper (into : Option Id → List (Change Id) → TreesM σ Id (Option Id)) (sub : Option Id)
    (deeper : List (Change Id)) : TreesM σ Id (Option Id) :=
  if deeper = [] then return sub else into sub deeper

/-- The edit of one name of a directory; `into` applies the deeper changes to a subdirectory. -/
def groupEdit (into : Option Id → List (Change Id) → TreesM σ Id (Option Id)) (dir : Option Id)
    (name : Name) (g : Group (Option (FileEntry Id))) : TreesM σ Id (Edits Id) := do
  let current ← findIn dir name
  let file := current.bind Node.file?
  let sub := current.bind Node.dir?
  if g.exact = some none ∧ file = none ∧ (sub ≠ none ∨ g.deeper ≠ []) then
    throw (.invalidInput "directory-prefix tombstone is ambiguous; delete exact entries")
  else
    let sub ← applyDeeper into sub g.deeper
    let next ← nextNode (g.exact.getD file) sub
    if next = current then return [] else return [(name, next.map (Item.ofNode name))]

/-- `apply_dir`, with the components a changed path may still have as its bound. -/
def applyDir : ℕ → Option Id → List (Change Id) → TreesM σ Id (Option Id)
  | 0, dir, _ => return dir
  | bound + 1, dir, changes => do
      let edits ← (groups changes).toList.mapM (fun g => groupEdit (applyDir bound) dir g.1 g.2)
      if edits.flatten = [] then return dir else update dir edits.flatten

/-- The root ID of a directory that may be empty. -/
def root (dir : Option Id) : TreesM σ Id Id :=
  match dir with
  | some root => return root
  | none => put Chunk.emptyLeaf

/-- Builds the tree of a complete snapshot. -/
def build (manifest : Manifest Id) : TreesM σ Id Id := do
  root (← applyDir MAX_DEPTH none (manifest.files.map (fun e => (e.1, some e.2))))

/-- The root after applying `changes` to the snapshot at `root`. -/
def apply (base : Id) (changes : SparseChanges Id) : TreesM σ Id Id := do
  root (← applyDir MAX_DEPTH (some base) changes.changes)

/-! ### Walking -/

/-- `prefix + name`, refused beyond the native path limits. -/
def joined (pre : List Name) (name : Name) : TreesM σ Id RepoPath :=
  let path : RepoPath := ⟨pre ++ [name]⟩
  if MAX_PATH < path.asStr.length ∨ MAX_DEPTH ≤ path.names.length - 1 then
    throw (.invalidInput "tree path exceeds path limits")
  else return path

/-- All items of one directory in order. -/
def leaves : ℕ → Chunk Id → TreesM σ Id (List (Item Id))
  | 0, chunk => return chunk.items
  | level + 1, chunk => do
      let parts ← chunk.items.mapM (fun item => do leaves level (← child chunk item false))
      return parts.flatten

/-- `walk`, with the depth of the deepest path as its bound; returns what it visits in order. -/
def walk : ℕ → Id → List Name → TreesM σ Id (List (RepoPath × FileEntry Id))
  | 0, _, _ => throw (.invalidInput "tree path exceeds path limits")
  | bound + 1, dir, pre => do
      let chunk ← chunk dir false
      let items ← leaves chunk.level chunk
      let parts ← items.mapM (fun item => do
        let path ← joined pre item.name
        match item.node with
        | .file entry => return [(path, entry)]
        | .dir id => walk bound id path.names)
      return parts.flatten

/-- The complete snapshot at `root`. -/
def entries (root : Id) : TreesM σ Id (SortedMap RepoPath (FileEntry Id)) := do
  return SortedMap.ofList (← walk (MAX_DEPTH + 1) root [])

/-- Every file strictly below `dir` in the snapshot at `root`. -/
def filesUnder (root : Id) (dir : RepoPath) : TreesM σ Id (List RepoPath) := do
  match ← lookup root dir with
  | some (.dir id) => return (← walk (MAX_DEPTH + 1) id dir.names).map Prod.fst
  | _ => return []

/-! ### Differences -/

/-- Chunks of one side of a comparison, with their IDs. -/
abbrev Side (Id : Type) := List (Id × Chunk Id)

/-- The root chunk of a directory that may be absent. -/
def loadSide : Option Id → TreesM σ Id (Side Id)
  | some id => do return [(id, ← get id)]
  | none => return []

/-- The chunks of `a` that are not also in `b`. -/
def unshared (a b : Side Id) : Side Id := a.filter (fun e => e.1 ∉ b.map Prod.fst)

/-- The highest level on a side. -/
def maxLevel (side : Side Id) : ℕ := (side.map (fun e => e.2.level)).foldr max 0

/-- Replaces the chunks at `level` by their children. -/
def expand (level : ℕ) (side : Side Id) : TreesM σ Id (Side Id) := do
  let parts ← side.mapM (fun e =>
    if e.2.level < level then pure [e]
    else e.2.items.mapM (fun item => do return (item.id, ← child e.2 item true)))
  return parts.flatten

/-- The first loop of `diff_items`, with the highest level as its bound: drops what both sides
share and expands the highest remaining level, down to leaves. -/
def narrow : ℕ → Side Id → Side Id → TreesM σ Id (Side Id × Side Id)
  | 0, a, b => return (unshared a b, unshared b a)
  | bound + 1, a, b =>
      let (a, b) := (unshared a b, unshared b a)
      let level := max (maxLevel a) (maxLevel b)
      if level = 0 then return (a, b)
      else do narrow bound (← expand level a) (← expand level b)

/-- The items of a side. -/
def sideItems (side : Side Id) : List (Item Id) := (side.map (fun e => e.2.items)).flatten

/-- The differing pairs of a merge of two item lists. -/
def pairDiff : Option (Item Id) × Option (Item Id) → Option (ItemDiff Id)
  | (l, r) =>
      if l = r then none
      else (l.or r).map (fun i => (i.name, l.map Item.node, r.map Item.node))

/-- Items that differ between two directories. -/
def diffItems (a b : Option Id) : TreesM σ Id (List (ItemDiff Id)) := do
  let a ← loadSide a
  let b ← loadSide b
  let (a, b) ← narrow (max (maxLevel a) (maxLevel b)) a b
  return (outerJoin Item.name (sideItems a) (sideItems b)).filterMap pairDiff

/-- The map `diff_dir` writes to. -/
abbrev DiffMap (Id : Type) := SortedMap RepoPath (Option (FileEntry Id))

/-- `diff_dir`, with the depth of the deepest path as its bound. -/
def diffDir : ℕ → Option Id → Option Id → List Name → DiffMap Id → TreesM σ Id (DiffMap Id)
  | 0, a, b, _, out =>
      if a = b then return out else throw (.invalidInput "tree path exceeds path limits")
  | bound + 1, a, b, pre, out =>
      if a = b then return out
      else do
        let items ← diffItems a b
        items.foldlM (fun out d => do
          let path ← joined pre d.1
          let file := d.2.2.bind Node.file?
          let out := if d.2.1.bind Node.file? ≠ file then out.insert path file else out
          let (a, b) := (d.2.1.bind Node.dir?, d.2.2.bind Node.dir?)
          if a ≠ b then diffDir bound a b path.names out else return out) out

/-- The changeset from snapshot `a` to snapshot `b`. -/
def diff (a b : Id) : TreesM σ Id (SparseChanges Id) := do
  SparseChanges.ofMap (← diffDir (MAX_DEPTH + 1) (some a) (some b) [] SortedMap.empty)

/-- What a changed path exactly at `path` meets: the files differ there, or below it. -/
def intersectExact (path : List Name) (filesDiffer : Bool) (a b : Option Id)
    (found : SortedSet RepoPath) : TreesM σ Id (SortedSet RepoPath) := do
  let found := if filesDiffer then found.add ⟨path⟩ else found
  let below ← diffDir (MAX_DEPTH + 1) a b path SortedMap.empty
  return if below.toList = [] then found else (found.add ⟨path⟩).addAll below.keys

/-- `intersectExact` when one of the changed paths is `path`. -/
def intersectHere (exact : Bool) (path : List Name) (filesDiffer : Bool) (a b : Option Id)
    (found : SortedSet RepoPath) : TreesM σ Id (SortedSet RepoPath) :=
  if exact then intersectExact path filesDiffer a b found else return found

/-- `intersect`, with the components a changed path may still have as its bound. -/
def intersect : ℕ → Option Id → Option Id → List Name → List (List Name × Unit) →
    SortedSet RepoPath → TreesM σ Id (SortedSet RepoPath)
  | 0, _, _, _, _, found => return found
  | bound + 1, base, head, pre, paths, found =>
      if base = head then return found
      else (groups paths).toList.foldlM (fun found g => do
        let before ← findIn base g.1
        let after ← findIn head g.1
        if before = after then return found
        else
          let path := pre ++ [g.1]
          let filesDiffer := decide (before.bind Node.file? ≠ after.bind Node.file?)
          let (a, b) := (before.bind Node.dir?, after.bind Node.dir?)
          let found ← intersectHere g.2.exact.isSome path filesDiffer a b found
          if g.2.deeper = [] then return found
          else
            let found := if filesDiffer then
                (found.add ⟨path⟩).addAll (g.2.deeper.map (fun rest => ⟨path ++ rest.1⟩))
              else found
            intersect bound a b path g.2.deeper found) found

/-- Sorted endpoints of every exact or ancestor/descendant intersection between the changed
paths and the files that differ between snapshots `base` and `head`. -/
def intersections (base head : Id) (changes : SparseChanges Id) :
    TreesM σ Id (SortedSet RepoPath) :=
  intersect MAX_DEPTH (some base) (some head) [] (changes.changes.map (fun c => (c.1, ())))
    SortedMap.empty

end Trees

end Javelin
