import Javelin.Domain
import Javelin.Interleaving

/-! # Scans of a directory

A scan walks a directory and hashes the files it finds.  The directory is a `Volume`: what the system calls
answer in the state of the moment, of any shape whatever.  A scan is a `Process` over it whose steps are
the system calls, so that files change between any two of them.

The stat cache keeps, for each path, the fingerprint it had when its content was last hashed.  `scanSource`
takes the entry of a path from the cache when it is trusted and its fingerprint is the one the walk saw;
otherwise it reads the file.  `layerScan` loads the cache, scans and saves it.

The directories of one walk are listed in order, one level after the other (`walk_levels`: the limit on the
depth of paths ends it). -/

namespace Javelin

open KeyedList

/-- Reads of one entry before it is reported uncertain. -/
def ATTEMPTS : ℕ := 3
/-- Entries modified this close to (or after) the scan start are racy. -/
def RACY_MARGIN_NS : ℤ := 2000000000

/-- The bytes of `.git`. -/
def dotGit : Str := [46, 103, 105, 116]
/-- The bytes of `.javelinignore`. -/
def CONFIG : Str := dotJavelin ++ [105, 103, 110, 111, 114, 101]
/-- Most bytes of the ignore rules. -/
def LIMIT : ℕ := 64 * 1024

/-! ### The directory -/

/-- What decides whether an entry may have changed. -/
structure Stat where
  size : ℕ
  mtime : ℤ
  ctime : ℤ
  ino : ℕ
  mode : ℕ
deriving DecidableEq

inductive IoError where
  | notFound
  /-- `ELOOP`: a link where none is followed. -/
  | symlinkLoop
  | other (text : String)
deriving DecidableEq

/-- A regular file or a symbolic link. -/
structure File where
  stat : Stat
  symlink : Bool
  /-- The error of opening it, if it cannot be opened. -/
  closed : Option IoError
  /-- The bytes of the file, or the target of the link. -/
  content : Except IoError Str

/-- What a path names. -/
inductive Place where
  | directory
  | file (file : File)
  | special

/-- One item of a directory listing. -/
inductive DirItem where
  | name (name : Str)
  | nonUtf8
  | failed (error : IoError)

/-- A cached claim: this fingerprint had this content. -/
structure Cached (Id : Type) where
  stat : Stat
  entry : FileEntry Id
  trusted : Bool

/-- The entries of a stat cache by their paths. -/
abbrev CacheEntries (Id : Type) := SortedMap Str (Cached Id)

/-- A directory, the clock and the file with the saved cache. -/
structure Volume (Id : Type) where
  clock : ℤ
  /-- `lstat`. -/
  lookup : Str → Except IoError Place
  /-- `readdir`. -/
  names : Str → Except IoError (List DirItem)
  /-- How often the entry at a path changed. -/
  changed : Str → ℕ
  /-- `none` if the file is missing, torn or corrupt. -/
  cache : Option (CacheEntries Id)

inductive ScanError (Id : Type) where
  | invalidInput
  | unsupported (name : Str)
  | io (error : IoError)
  | store (error : Error Id)
deriving DecidableEq

/-- What a walk imports from its directory. -/
inductive Source where
  | layer
  | project
deriving DecidableEq

/-- The rules of a `.javelinignore`, each a path. -/
abbrev IgnoreRules := List Str

/-- Whether a path matches a rule; `.javelinignore` itself never does. -/
def IgnoreRules.ignored (rules : IgnoreRules) (path : Str) : Bool :=
  path != CONFIG && rules.any (fun rule => path == rule || (rule ++ [slash]).isPrefixOf path)

/-- What a scan calls besides the directory. -/
structure Surroundings (Id : Type) where
  /-- Stores a blob. -/
  store : Str → Except (Error Id) Id
  /-- Reads rules from the bytes of `.javelinignore`. -/
  parseRules : Str → Option IgnoreRules
  /-- What reading an open file gives when it changed since it was opened. -/
  torn : Volume Id → Str → Except IoError Str
  /-- Whether the cache can be saved. -/
  saves : Volume Id → Bool

namespace Surroundings

variable {Id : Type} (host : Surroundings Id)

abbrev Scanning (Id α : Type) := Process Unit (Volume Id) (ScanError Id) α

abbrev Accessing (Id α : Type) := Process Unit (Volume Id) IoError α

/-! ### Reading one entry -/

def executableBit (stat : Stat) : Bool := stat.mode.testBit 6

/-- The entry of a file with this content. -/
def entryOf (stat : Stat) (symlink : Bool) (content : Id) : FileEntry Id :=
  if symlink then .symlink content else .regular content (executableBit stat)

/-- The fingerprint of a file or a link. -/
def lstat (path : Str) : Accessing Id (Option Stat) :=
  .read () (fun v => do
    match ← v.lookup path with
    | .file file => pure (some file.stat)
    | _ => pure none)

def readLink (path : Str) : Accessing Id Str :=
  .read () (fun v => do
    match ← v.lookup path with
    | .file file => if file.symlink then file.content else throw (.other "Invalid argument")
    | _ => throw (.other "Invalid argument"))

/-- An open regular file, and how often it had changed. -/
structure Opened where
  file : File
  seen : ℕ

/-- Opens a path without following a link; `none` if it is no regular file. -/
def openFile (path : Str) : Accessing Id (Option Opened) :=
  .read () (fun v => do
    match ← v.lookup path with
    | .file file =>
        if file.symlink then throw .symlinkLoop
        match file.closed with
        | some e => throw e
        | none => pure (some ⟨file, v.changed path⟩)
    | _ => pure none)

def readOpened (path : Str) (opened : Opened) : Accessing Id Str :=
  .read () (fun v => if v.changed path = opened.seen then opened.file.content else host.torn v path)

/-- `none` means the entry changed underneath. -/
def readEntry (path : Str) (before : Stat) : Accessing Id (Option (Bool × Str)) := do
  let link ← .read () (fun v => do
    match ← v.lookup path with
    | .file file => pure file.symlink
    | _ => pure false)
  if link then
    let bytes ← readLink path
    pure (some (true, bytes))
  else
    match ← openFile path with
    | none => pure none
    | some opened =>
        if opened.file.stat = before then
          let bytes ← host.readOpened path opened
          pure (some (false, bytes))
        else pure none

/-- One read between two looks at the fingerprint. -/
def attempt (path : Str) : Accessing Id (Option (Stat × Bool × Str)) := do
  match ← lstat path with
  | none => pure none
  | some before =>
      match ← host.readEntry path before with
      | none => pure none
      | some (symlink, bytes) =>
          match ← (lstat path).caught with
          | .ok after => pure (if after = some before then some (before, symlink, bytes) else none)
          | .error _ => pure none

inductive Hashed (Id : Type) where
  | stable (stat : Stat) (entry : FileEntry Id)
  | gone
  | unstable

def readStable (path : Str) : ℕ → Scanning Id (Hashed Id)
  | 0 => pure .unstable
  | attempts + 1 => do
      match ← (host.attempt path).caught with
      | .ok none => readStable path attempts
      | .ok (some (after, symlink, bytes)) =>
          match host.store bytes with
          | .error e => .fail (.store e)
          | .ok content => pure (.stable after (entryOf after symlink content))
      | .error .notFound => pure .gone
      | .error .symlinkLoop => readStable path attempts
      | .error e => .fail (.io e)

/-! ### The walk -/

/-- A file or link that the walk saw, with its fingerprint. -/
structure Found where
  relative : Str
  path : RepoPath
  stat : Stat

/-- What the walk makes of one item. -/
inductive Listed where
  | nothing
  | found (found : Found)
  | subdirectory (relative : Str)

def join (directory name : Str) : Str :=
  if directory.isEmpty then name else directory ++ slash :: name

/-- Ignore rules hide only untracked paths; tracked paths and their ancestors stay visible. -/
def untrackedIgnored (rules : IgnoreRules) (prior : Manifest Id) (path : RepoPath) (directory : Bool) : Bool :=
  rules.ignored path.asStr &&
    !(if directory then prior.entries.keys.any (fun p => (path.asStr ++ [slash]).isPrefixOf p.asStr)
      else (prior.entries.get? path).isSome)

section walking

variable (source : Source) (rules : IgnoreRules) (prior : Manifest Id)

def skipped (name : Str) : Bool :=
  eqIgnoreAsciiCase name dotJavelin || (source == .project && eqIgnoreAsciiCase name dotGit)

def listItem (directory : Str) : DirItem → Scanning Id Listed
  | .failed e => .fail (.io e)
  | .nonUtf8 => .fail (.unsupported directory)
  | .name name =>
      if skipped source name then pure .nothing
      else match RepoPath.parse (join directory name) with
        | none => .fail (.unsupported (join directory name))
        | some path => .read () (fun v =>
            match v.lookup (join directory name) with
            | .error .notFound => .ok .nothing
            | .error e => .error (.io e)
            | .ok .directory =>
                .ok (if untrackedIgnored rules prior path true then .nothing
                  else .subdirectory (join directory name))
            | .ok .special => .error (.unsupported (join directory name))
            | .ok (.file file) =>
                .ok (if untrackedIgnored rules prior path false then .nothing
                  else .found ⟨join directory name, path, file.stat⟩))

def listItems (directory : Str) : List DirItem → Scanning Id (List Listed)
  | [] => pure []
  | item :: items => do
      let first ← listItem source rules prior directory item
      let rest ← listItems directory items
      pure (first :: rest)

/-- Lists one directory. -/
def list (directory : Str) : Scanning Id (List Listed) := do
  let items ← .read () (fun v =>
    match v.names directory with
    | .ok items => .ok items
    -- A directory removed after its parent was listed holds nothing to capture.
    | .error .notFound => if directory.isEmpty then .error (.io .notFound) else .ok []
    | .error e => .error (.io e))
  listItems source rules prior directory items

def listAll : List Str → Scanning Id (List Listed)
  | [] => pure []
  | directory :: directories => do
      let first ← list source rules prior directory
      let rest ← listAll directories
      pure (first ++ rest)

def files (listed : List Listed) : List Found :=
  listed.filterMap (fun item => match item with | .found found => some found | _ => none)

def subdirectories (listed : List Listed) : List Str :=
  listed.filterMap (fun item => match item with | .subdirectory relative => some relative | _ => none)

/-- Walks the directories and at most so many levels from them. -/
def walkLevels : ℕ → List Str → Scanning Id (List Found)
  | _, [] => pure []
  | 0, _ => pure []
  | levels + 1, directories => do
      let listed ← listAll source rules prior directories
      let below ← walkLevels levels (subdirectories listed)
      pure (files listed ++ below)

/-- Lists every capturable file and symlink with its fingerprint. -/
def walk : Scanning Id (List Found) := walkLevels source rules prior (MAX_DEPTH + 1) [[]]

end walking

/-- The ignore rules at the root: a bounded regular file, never a link. -/
def ignoreRules : Scanning Id IgnoreRules := do
  let present ← .read () (fun v =>
    match v.lookup CONFIG with
    | .ok (.file file) => if file.symlink then .error .invalidInput else .ok true
    | .ok _ => .error .invalidInput
    | .error .notFound => .ok false
    | .error e => .error (.io e))
  if present then
    match ← (openFile CONFIG).caught with
    | .ok (some opened) =>
        match ← (host.readOpened CONFIG opened).caught with
        | .ok bytes =>
            if LIMIT < bytes.length then .fail .invalidInput
            else match host.parseRules bytes with
              | some rules => pure rules
              | none => .fail .invalidInput
        | .error e => .fail (.io e)
    | _ => .fail .invalidInput
  else pure []

/-! ### The scan -/

/-- The directory's complete current entries. -/
structure Scan (Id : Type) where
  entries : SortedMap RepoPath (FileEntry Id)
  hashed : ℕ
  /-- Entries that kept changing.  Each keeps its prior state. -/
  uncertain : List RepoPath

structure StatCache (Id : Type) where
  entries : CacheEntries Id
  dirty : Bool

/-- A scan under way: the cached claims it has not used, the fresh ones, and its answer so far. -/
structure Progress (Id : Type) where
  old : CacheEntries Id
  fresh : CacheEntries Id
  dirty : Bool
  scan : Scan Id

/-- The cached claim for an entry that the walk saw. -/
def reused (old : CacheEntries Id) (found : Found) : Option (Cached Id) :=
  (old.get? found.relative).filter (fun c => c.trusted && c.stat == found.stat)

namespace Progress

/-- The entry at a path, with its claim. -/
def take (progress : Progress Id) (found : Found) (cached : Cached Id) : Progress Id :=
  { progress with
    old := progress.old.erase found.relative
    fresh := progress.fresh.insert found.relative cached
    scan := { progress.scan with entries := progress.scan.entries.insert found.path cached.entry } }

/-- The claim from a stable read.  The walk's fingerprint is what the next walk compares against; the read's
own fingerprint must also be old. -/
def claim (racy : ℤ) (found : Found) (read : Stat) (entry : FileEntry Id) : Cached Id :=
  let old := fun s : Stat => decide (s.mtime < racy) && decide (s.ctime < racy)
  ⟨found.stat, entry, old found.stat && old read && found.stat == read⟩

def hash (progress : Progress Id) : Progress Id :=
  { progress with dirty := true, scan := { progress.scan with hashed := progress.scan.hashed + 1 } }

def drop (progress : Progress Id) (found : Found) : Progress Id :=
  { progress with old := progress.old.erase found.relative, dirty := true }

/-- The prior state of a path that kept changing. -/
def keep (prior : Manifest Id) (progress : Progress Id) (found : Found) : Progress Id :=
  { progress.drop found with
    scan :=
      { progress.scan with
        entries :=
          match prior.entries.get? found.path with
          | some entry => progress.scan.entries.insert found.path entry
          | none => progress.scan.entries
        uncertain := progress.scan.uncertain ++ [found.path] } }

end Progress

/-- One entry that the walk saw: from the cache, or read. -/
def captureFound (prior : Manifest Id) (racy : ℤ) (progress : Progress Id) (found : Found) :
    Scanning Id (Progress Id) :=
  match reused progress.old found with
  | some cached => pure (progress.take found cached)
  | none => do
      match ← host.readStable found.relative ATTEMPTS with
      | .stable read entry => pure (progress.hash.take found (Progress.claim racy found read entry))
      | .gone => pure (progress.drop found)
      | .unstable => pure (progress.keep prior found)

def captureAll (prior : Manifest Id) (racy : ℤ) (progress : Progress Id) :
    List Found → Scanning Id (Progress Id)
  | [] => pure progress
  | found :: rest => do
      let progress ← host.captureFound prior racy progress found
      captureAll prior racy progress rest

def scanSource (source : Source) (prior : Manifest Id) (cache : StatCache Id) :
    Scanning Id (Scan Id × StatCache Id) := do
  .read () (fun v =>
    match v.lookup [] with
    | .ok .directory => .ok ()
    | .ok _ => .error .invalidInput
    | .error e => .error (.io e))
  let rules ← host.ignoreRules
  let racy ← .read () (fun v => .ok (v.clock - RACY_MARGIN_NS))
  let found ← walk source rules prior
  let progress ← host.captureAll prior racy ⟨cache.entries, .empty, cache.dirty, ⟨.empty, 0, []⟩⟩ found
  pure ({ progress.scan with uncertain := progress.scan.uncertain.mergeSort (fun p q => decide (p ≤ q)) },
    ⟨progress.fresh, progress.dirty || !progress.old.toList.isEmpty⟩)

/-- A missing, unreadable or corrupt cache loads as empty. -/
def load (v : Volume Id) : StatCache Id :=
  match v.cache with
  | some entries => ⟨entries, false⟩
  | none => ⟨.empty, true⟩

/-- Replaces the saved cache, or fails and leaves it.  Skips the write when the scan changed nothing. -/
def save (cache : StatCache Id) (v : Volume Id) : Volume Id :=
  if cache.dirty && host.saves v then { v with cache := some cache.entries } else v

/-- A scan that loads the cache and saves it. -/
def layerScan (source : Source) (prior : Manifest Id) : Scanning Id (Scan Id) := do
  let cache ← .read () (fun v => .ok (load v))
  let (scan, cache) ← host.scanSource source prior cache
  .step () (host.save cache) (fun _ => .done (.ok scan))

end Surroundings

end Javelin
