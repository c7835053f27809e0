import Javelin.Interleaving
import Javelin.System
import Javelin.WorldLogs

/-! # Attaching a store

A store that follows a hosted repository holds the head it last reported.  `attachHead` advances the local
World to the tree of a reported head: `checkAttach` refuses other history, then the head is read once more
and the World advanced from there, under an operation named after the reported chain.  `attach.json` is
written last (`attach`).

Each read of the head, of `attach.json` and of a receipt is a transaction of its own, and so is the advance;
the publications of other clients come between them (`Others`).  `Undisturbed` is when none came where it
does harm. -/

namespace Javelin

open KeyedList Bytes Repository

variable {Id : Type} [LinearOrder Id] [Encoding Id]

def ATTACH_PREFIX : Str := text "attach-"

/-- A head a node reported.  The number is the remote World's. -/
structure RemoteHead (Id : Type) where
  number : ℕ
  id : Id
  tree : Id

/-- `attach.json`. -/
structure Attachment (Id : Type) where
  node : Str
  repository : Str
  provider : Str
  head : RemoteHead Id

/-- The operation that records an attach.  `OperationId::parse` takes the prefix and 64 hex digits. -/
def attachOperation [IdBytes Id] (head : RemoteHead Id) : OperationId := ⟨ATTACH_PREFIX ++ idText head.id⟩

/-- A repository with the publications in flight, and `attach.json`. -/
structure LocalStore (Id : Type) where
  system : System Id
  attachment : Option (Attachment Id)

/-- What a step is announced as.  `again checked head`: `attach_head` reads the head a second time, after
the check let `checked` pass. -/
inductive AttachStep (Id : Type) where
  | other
  | again (checked : WorldVersion Id) (head : RemoteHead Id)

/-- A command on a local store. -/
abbrev AttachM (Id : Type) [LinearOrder Id] (α : Type) := Process (AttachStep Id) (LocalStore Id) (Error Id) α

namespace LocalStore

def initial (identity : Id) : LocalStore Id := ⟨System.initial identity, none⟩

omit [LinearOrder Id] [Encoding Id] in
abbrev repository (s : LocalStore Id) : Repository Id := s.system.repository

def withRepository (s : LocalStore Id) (r : Repository Id) : LocalStore Id :=
  { s with system := { s.system with repository := r } }

/-! ### Transactions -/

def head (label : AttachStep Id) : AttachM Id (WorldVersion Id) := .read label (fun s => s.repository.headIn)

def attachmentOf : AttachM Id (Option (Attachment Id)) := .read .other (fun s => .ok s.attachment)

def publication (operation : OperationId) : AttachM Id (Option (PublicationReceipt Id)) :=
  .read .other (fun s => s.repository.publication operation)

def advanced (operation : OperationId) (expected : VersionNumber) (tree : Id) (s : LocalStore Id) :
    Except (Error Id) (AdvanceOutcome Id × LocalStore Id) := do
  let (outcome, r) ← s.repository.advanceToTree operation expected tree
  return (outcome, s.withRepository r)

def advanceToTree (operation : OperationId) (expected : VersionNumber) (tree : Id) :
    AttachM Id (AdvanceOutcome Id) := .transact .other (advanced operation expected tree)

/-- `write_attachment`: a temporary file, then renamed. -/
def writeAttachment (attachment : Attachment Id) : AttachM Id Unit :=
  .transact .other (fun s => .ok ((), { s with attachment := some attachment }))

/-! ### Attaching -/

/-- Whether an attach was interrupted before `attach.json` was written; and the head it looked at. -/
def interruptedAttach : AttachM Id (Bool × WorldVersion Id) := do
  let world ← head .other
  match world.operation.filter (fun operation => ATTACH_PREFIX.isPrefixOf operation.text) with
  | none => return (false, world)
  | some operation => do
      let attachment ← attachmentOf
      if attachment.isSome then return (false, world)
      else do
        let receipt ← publication operation
        return (receipt.isNone, world)

/-- Refuses an attach that this store cannot take.  The source answers with nothing; here the head that
passed goes along, for the label of the next step. -/
def checkAttach : AttachM Id (WorldVersion Id) := do
  let world ← head .other
  if world.number = 0 then return world
  else do
    let (interrupted, world) ← interruptedAttach
    if interrupted then return world
    else Process.fail (.invalidInput
      "this repository already has World history; attach needs an empty repository at World 0")

section attach
variable [IdBytes Id]

/-- `attach_head` after its check. -/
def advanceTo (remote : RemoteHead Id) (checked : WorldVersion Id) : AttachM Id Unit := do
  let world ← head (.again checked remote)
  if world.tree = remote.tree then return ()
  else do
    match ← advanceToTree (attachOperation remote) world.number remote.tree with
    | .accepted _ => return ()
    | .stale _ => Process.fail (.invalidInput "the local World moved during attach; retry")

/-- Makes the local head hold the reported tree. -/
def attachHead (remote : RemoteHead Id) : AttachM Id Unit := do
  let checked ← checkAttach
  advanceTo remote checked

/-- `stage` and `complete`, less what they fetch and materialize. -/
def attach (attachment : Attachment Id) : AttachM Id Unit := do
  let _ ← checkAttach
  attachHead attachment.head
  writeAttachment attachment

end attach

/-! ### Other clients -/

/-- What other clients do: publish, and write whatever does not move the World. -/
inductive Others : LocalStore Id → LocalStore Id → Prop
  | transact {r r' plans attachment} : Transaction r r' → r'.versions = r.versions →
      Others ⟨⟨r, plans⟩, attachment⟩ ⟨⟨r', plans⟩, attachment⟩
  | prepare {r plans attachment call plan} : r.prepareIn call = .ok (.advance plan) →
      Others ⟨⟨r, plans⟩, attachment⟩ ⟨⟨r, (call, plan) :: plans⟩, attachment⟩
  | commit {r r' plans attachment call plan guard receipt} : (call, plan) ∈ plans →
      r.commitIn call plan guard = .ok (some (receipt, r')) →
      Others ⟨⟨r, plans⟩, attachment⟩ ⟨⟨r', plans⟩, attachment⟩

/-- The commands that attach, for any reported head. -/
inductive Attaching [IdBytes Id] : AttachM Id Unit → Prop
  | attachHead (remote : RemoteHead Id) : Attaching (attachHead remote)
  | attach (attachment : Attachment Id) : Attaching (attach attachment)

/-- No publication appended the version. -/
def Unpublished (s : LocalStore Id) (version : WorldVersion Id) : Prop :=
  ∀ operation, version.operation = some operation → s.repository.publications.get? operation = none

/-- When the head is read a second time, it has the reported tree, or no version above the checked head was
published. -/
def Undisturbed : AttachStep Id → LocalStore Id → Prop
  | .other, _ => True
  | .again checked remote, s => (∀ world ∈ s.repository.versions.getLast?, world.tree = remote.tree) ∨
      ∀ version ∈ s.repository.versions, checked.number < version.number → s.Unpublished version

end LocalStore

end Javelin
