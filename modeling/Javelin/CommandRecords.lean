import Javelin.Texts

/-! # Records of review commands

A review row keeps a command as one line of fields with spaces between (`encodeCommand`), and restoring a
request reads it back (`decodeCommand`).  No field contains a space, so a command of the source's types is
read back from its record (`decode_encode_command`), and records are equal only when the commands are
(`command_records`): comparing the stored bytes with those of a retry decides whether it is the same. -/

namespace Javelin

open Bytes Collaboration Protocol

namespace Review

/-! ### Writing -/

/-- The fields of a revision. -/
def revisionFields (revision : RevisionRef ObjectId) : Str :=
  spaced [showNumber revision.base, idText revision.checkpoint, idText revision.tree,
    match revision.context with
    | some context => idText context
    | none => text "-"]

/-- The fields of an action, behind its name. -/
def actionFields : Action ObjectId → Str
  | .open revision => spaced [text "open", revisionFields revision]
  | .revise expected revision => spaced [text "revise", showNumber expected, revisionFields revision]
  | .approve index revision => spaced [text "approve", showNumber index, revisionFields revision]
  | .comment index body =>
      spaced [text "comment",
        match index with
        | some n => showNumber n
        | none => text "-",
        Control.hex body.text]
  | .publish index revision => spaced [text "publish", showNumber index, revisionFields revision]
  | .close index => spaced [text "close", showNumber index]

/-- The canonical bytes of a command. -/
def encodeCommand (id : RequestId) (command : Command ObjectId) : Str :=
  spaced [id.text, command.operation.text, command.actor.text, actionFields command.action]

/-! ### Reading -/

def malformedRecord : ProtocolError := ⟨"storage", "malformed review record"⟩

/-- Readers of tokens. -/
abbrev TokenReader := StateT (List Str) (Except ProtocolError)

def next : TokenReader Str
  | [] => .error malformedRecord
  | token :: tokens => .ok (token, tokens)

/-- What a token stands for. -/
def parsed {α : Type} (x : Option α) : TokenReader α := fun tokens =>
  match x with
  | some a => .ok (a, tokens)
  | none => .error malformedRecord

/-- A number of an unsigned type of so many values. -/
def number (bound : ℕ) : TokenReader ℕ := do
  let token ← next
  parsed (parseNumber bound token)

def object (token : Str) : TokenReader ObjectId := parsed (parseObjectId token)

/-- `-` or what the token stands for. -/
def optional {α : Type} (read : Str → TokenReader α) : TokenReader (Option α) := do
  let token ← next
  if token = text "-" then return none
  else do
    let a ← read token
    return some a

/-- Most values of `u32` and of `u64`. -/
def U32 : ℕ := 2 ^ 32
def U64 : ℕ := 2 ^ 64

def revision : TokenReader (RevisionRef ObjectId) := do
  let value ← number U64
  let base ← parsed (if value ≤ MAX_VERSION then some value else none)
  let checkpoint ← next
  let checkpoint ← object checkpoint
  let tree ← next
  let tree ← object tree
  let context ← optional object
  return ⟨base, checkpoint, tree, context⟩

/-- The action with this name. -/
def action (name : Str) : TokenReader (Action ObjectId) :=
  if name = text "open" then do
    let revision ← revision
    return .open revision
  else if name = text "revise" then do
    let expected ← number U32
    let revision ← revision
    return .revise expected revision
  else if name = text "approve" then do
    let index ← number U32
    let revision ← revision
    return .approve index revision
  else if name = text "publish" then do
    let index ← number U32
    let revision ← revision
    return .publish index revision
  else if name = text "comment" then do
    let index ← optional (fun token => parsed (parseNumber U32 token))
    let token ← next
    let bytes ← parsed (unhex token)
    let body ← parsed ((ofText bytes).bind (fun _ => CommentBody.parse bytes))
    return .comment index body
  else if name = text "close" then do
    let index ← number U32
    return .close index
  else parsed none

def command : TokenReader (RequestId × Command ObjectId) := do
  let id ← next
  let id ← parsed (RequestId.parse id)
  let operation ← next
  let operation ← parsed (OperationId.parse operation)
  let actor ← next
  let actor ← parsed (PrincipalId.parse actor)
  let name ← next
  let action ← action name
  return (id, ⟨operation, actor, action⟩)

/-- Reads a record; what is behind the last field is not looked at. -/
def decodeCommand (bytes : Str) : Except ProtocolError (RequestId × Command ObjectId) :=
  match ofText bytes with
  | none => .error malformedRecord
  | some _ => (command (tokens bytes)).map Prod.fst

/-! ### The types of the source -/

/-- A version number has 63 bits. -/
def TypedRevision (revision : RevisionRef ObjectId) : Prop := revision.base ≤ MAX_VERSION

/-- Indexes have 32 bits, and a comment is text. -/
def TypedAction : Action ObjectId → Prop
  | .open revision => TypedRevision revision
  | .revise expected revision => expected < U32 ∧ TypedRevision revision
  | .approve index revision => index < U32 ∧ TypedRevision revision
  | .comment index body => (∀ n, index = some n → n < U32) ∧ ofText body.text ≠ none
  | .publish index revision => index < U32 ∧ TypedRevision revision
  | .close index => index < U32

/-- A command that the source's types can hold. -/
structure Typed (command : Command ObjectId) : Prop where
  operation : OperationText command.operation.text
  action : TypedAction command.action

/-! ### Tokens -/

/-- The token of an optional field. -/
def optionalToken {α : Type} (write : α → Str) : Option α → Str
  | some a => write a
  | none => text "-"

def revisionTokens (revision : RevisionRef ObjectId) : List Str :=
  [showNumber revision.base, idText revision.checkpoint, idText revision.tree,
    optionalToken idText revision.context]

def actionTokens : Action ObjectId → List Str
  | .open revision => text "open" :: revisionTokens revision
  | .revise expected revision => text "revise" :: showNumber expected :: revisionTokens revision
  | .approve index revision => text "approve" :: showNumber index :: revisionTokens revision
  | .comment index body => [text "comment", optionalToken showNumber index, Control.hex body.text]
  | .publish index revision => text "publish" :: showNumber index :: revisionTokens revision
  | .close index => [text "close", showNumber index]

def commandTokens (id : RequestId) (command : Command ObjectId) : List Str :=
  [id.text, command.operation.text, command.actor.text] ++ actionTokens command.action

theorem revisionFields_eq (revision : RevisionRef ObjectId) :
    revisionFields revision = spaced (revisionTokens revision) := by
  unfold revisionFields revisionTokens
  cases revision.context with
  | none => rfl
  | some context => rfl

theorem actionFields_eq (action : Action ObjectId) : actionFields action = spaced (actionTokens action) := by
  cases action with
  | «open» revision => rw [actionFields, revisionFields_eq]; rfl
  | revise expected revision => rw [actionFields, revisionFields_eq]; rfl
  | approve index revision => rw [actionFields, revisionFields_eq]; rfl
  | publish index revision => rw [actionFields, revisionFields_eq]; rfl
  | close index => rfl
  | comment index body =>
      cases index with
      | none => rfl
      | some n => rfl

theorem actionTokens_ne_nil (action : Action ObjectId) : actionTokens action ≠ [] := by
  cases action <;> exact List.cons_ne_nil _ _

theorem encodeCommand_eq (id : RequestId) (command : Command ObjectId) :
    encodeCommand id command = spaced (commandTokens id command) := by
  unfold encodeCommand commandTokens
  rw [spaced_append (List.cons_ne_nil _ _) (actionTokens_ne_nil command.action), ← actionFields_eq]
  simp [spaced]

theorem plain_optional {α : Type} {write : α → Str} (h : ∀ a, Plain (write a)) (a : Option α) :
    Plain (optionalToken write a) := by
  cases a with
  | none =>
      show Plain (text "-")
      decide
  | some a => exact h a

theorem plain_revision (revision : RevisionRef ObjectId) {token : Str} (h : token ∈ revisionTokens revision) :
    Plain token := by
  simp only [revisionTokens, List.mem_cons, List.not_mem_nil, or_false] at h
  obtain rfl | rfl | rfl | rfl := h
  · exact plain_showNumber _
  · exact plain_hex _
  · exact plain_hex _
  · exact plain_optional (fun id => plain_hex _) _

theorem plain_action (action : Action ObjectId) {token : Str} (h : token ∈ actionTokens action) : Plain token := by
  have hname : ∀ name ∈ [text "open", text "revise", text "approve", text "publish", text "comment", text "close"],
      Plain name := by
    decide
  cases action with
  | «open» revision =>
      obtain rfl | h := List.mem_cons.mp h
      · exact hname _ (by simp)
      · exact plain_revision revision h
  | revise expected revision =>
      obtain rfl | h := List.mem_cons.mp h
      · exact hname _ (by simp)
      obtain rfl | h := List.mem_cons.mp h
      · exact plain_showNumber expected
      · exact plain_revision revision h
  | approve index revision =>
      obtain rfl | h := List.mem_cons.mp h
      · exact hname _ (by simp)
      obtain rfl | h := List.mem_cons.mp h
      · exact plain_showNumber index
      · exact plain_revision revision h
  | publish index revision =>
      obtain rfl | h := List.mem_cons.mp h
      · exact hname _ (by simp)
      obtain rfl | h := List.mem_cons.mp h
      · exact plain_showNumber index
      · exact plain_revision revision h
  | comment index body =>
      simp only [actionTokens, List.mem_cons, List.not_mem_nil, or_false] at h
      obtain rfl | rfl | rfl := h
      · exact hname _ (by simp)
      · exact plain_optional plain_showNumber index
      · exact plain_hex body.text
  | close index =>
      simp only [actionTokens, List.mem_cons, List.not_mem_nil, or_false] at h
      obtain rfl | rfl := h
      · exact hname _ (by simp)
      · exact plain_showNumber index

theorem plain_command (id : RequestId) {command : Command ObjectId} (h : Typed command) {token : Str}
    (ht : token ∈ commandTokens id command) : Plain token := by
  unfold commandTokens at ht
  obtain ht | ht := List.mem_append.mp ht
  · simp only [List.mem_cons, List.not_mem_nil, or_false] at ht
    obtain rfl | rfl | rfl := ht
    · exact plain_opaqueId id.valid
    · exact plain_operation h.operation
    · exact plain_opaqueId command.actor.valid
  · exact plain_action command.action ht

/-! ### Reading back -/

section reading
variable {α β : Type} {ts ts' : List Str}

theorem bind_of_ok {r : TokenReader α} {a : α} (h : r ts = .ok (a, ts')) (k : α → TokenReader β) :
    (r >>= k) ts = k a ts' := by
  show (r ts >>= fun p => k p.1 p.2) = _
  rw [h]
  rfl

theorem next_bind (token : Str) (k : Str → TokenReader β) : (next >>= k) (token :: ts) = k token ts := rfl

theorem parsed_bind {x : Option α} {a : α} (h : x = some a) (k : α → TokenReader β) :
    (parsed x >>= k) ts = k a ts := by
  rw [h]
  rfl

theorem number_show {bound n : ℕ} (h : n < bound) : number bound (showNumber n :: ts) = .ok (n, ts) := by
  unfold number
  rw [next_bind, parseNumber_show h]
  rfl

theorem optional_token {read : Str → TokenReader α} {write : α → Str} {a : Option α}
    (hne : ∀ x, a = some x → write x ≠ text "-")
    (hread : ∀ x, a = some x → read (write x) ts = .ok (x, ts)) :
    optional read (optionalToken write a :: ts) = .ok (a, ts) := by
  unfold optional
  rw [next_bind]
  cases a with
  | none => rfl
  | some x =>
      show (if write x = text "-" then _ else _ : TokenReader (Option α)) ts = _
      rw [if_neg (hne x rfl)]
      exact bind_of_ok (hread x rfl) _

end reading

/-- A minus sign is neither a number nor an ID. -/
theorem showNumber_ne_minus (n : ℕ) : showNumber n ≠ text "-" := by
  intro h
  have hm : (45 : UInt8) ∈ showNumber n := by
    rw [h]
    decide
  exact absurd (isDigit_of_mem_show hm).1 (by decide)

theorem idText_ne_minus (id : ObjectId) : idText id ≠ text "-" := by
  intro h
  have hlen : (idText id).length = 64 := by
    show (Control.hex id.1).length = 64
    rw [length_hex, id.2]
  rw [h] at hlen
  exact absurd hlen (by decide)

theorem revision_tokens {r : RevisionRef ObjectId} (h : TypedRevision r) :
    revision (revisionTokens r) = .ok (r, []) := by
  have hbase : r.base < U64 := lt_of_le_of_lt h (by decide)
  unfold revision revisionTokens object
  rw [bind_of_ok (number_show hbase), parsed_bind (if_pos (show r.base ≤ MAX_VERSION from h)), next_bind,
    parsed_bind (parseObjectId_idText _), next_bind, parsed_bind (parseObjectId_idText _),
    bind_of_ok (optional_token (fun x _ => idText_ne_minus x) (fun x _ => by rw [parseObjectId_idText]; rfl))]
  rfl

theorem action_tokens {a : Action ObjectId} (h : TypedAction a) :
    (next >>= action) (actionTokens a) = .ok (a, []) := by
  cases a with
  | «open» r =>
      show action (text "open") (revisionTokens r) = _
      unfold action
      rw [if_pos rfl, bind_of_ok (revision_tokens h)]
      rfl
  | revise expected r =>
      show action (text "revise") (showNumber expected :: revisionTokens r) = _
      unfold action
      rw [if_neg (by decide), if_pos rfl, bind_of_ok (number_show h.1), bind_of_ok (revision_tokens h.2)]
      rfl
  | approve index r =>
      show action (text "approve") (showNumber index :: revisionTokens r) = _
      unfold action
      rw [if_neg (by decide), if_neg (by decide), if_pos rfl, bind_of_ok (number_show h.1),
        bind_of_ok (revision_tokens h.2)]
      rfl
  | publish index r =>
      show action (text "publish") (showNumber index :: revisionTokens r) = _
      unfold action
      rw [if_neg (by decide), if_neg (by decide), if_neg (by decide), if_pos rfl, bind_of_ok (number_show h.1),
        bind_of_ok (revision_tokens h.2)]
      rfl
  | comment index body =>
      have hbody : (ofText body.text).bind (fun _ => CommentBody.parse body.text) = some body := by
        obtain ⟨s, hs⟩ := Option.ne_none_iff_exists'.mp h.2
        rw [hs]
        exact dif_pos body.valid
      show action (text "comment") [optionalToken showNumber index, Control.hex body.text] = _
      unfold action
      rw [if_neg (by decide), if_neg (by decide), if_neg (by decide), if_neg (by decide), if_pos rfl,
        bind_of_ok (optional_token (fun n _ => showNumber_ne_minus n)
          (fun n hn => by rw [parseNumber_show (h.1 n hn)]; rfl)),
        next_bind, parsed_bind (unhex_hex body.text), parsed_bind hbody]
      rfl
  | close index =>
      show action (text "close") [showNumber index] = _
      unfold action
      rw [if_neg (by decide), if_neg (by decide), if_neg (by decide), if_neg (by decide), if_neg (by decide),
        if_pos rfl, bind_of_ok (number_show h)]
      rfl

/-- A command is read back from its record. -/
theorem decode_encode_command (id : RequestId) {c : Command ObjectId} (h : Typed c) :
    decodeCommand (encodeCommand id c) = .ok (id, c) := by
  have hne : commandTokens id c ≠ [] := by simp [commandTokens]
  obtain ⟨hutf8, htokens⟩ := line_of_plain (fun _ => plain_command id h) hne
  have hid : RequestId.parse id.text = some id := dif_pos id.valid
  have hoperation : OperationId.parse c.operation.text = some c.operation := if_pos h.operation
  have hactor : PrincipalId.parse c.actor.text = some c.actor := dif_pos c.actor.valid
  have hcommand : command (commandTokens id c) = .ok ((id, c), []) := by
    show command (id.text :: c.operation.text :: c.actor.text :: actionTokens c.action) = _
    unfold command
    rw [next_bind, parsed_bind hid, next_bind, parsed_bind hoperation, next_bind, parsed_bind hactor]
    rw [← bind_assoc, bind_of_ok (action_tokens h.action)]
    rfl
  obtain ⟨s, hs⟩ := Option.ne_none_iff_exists'.mp hutf8
  unfold decodeCommand
  rw [encodeCommand_eq, hs]
  dsimp only
  rw [htokens, hcommand]
  rfl

/-- A record is read back as the request and the command it was written for, so two records are equal exactly
when the requests and the commands are. -/
theorem command_records (id id' : RequestId) {c c' : Command ObjectId} (h : Typed c) (h' : Typed c') :
    decodeCommand (encodeCommand id c) = .ok (id, c) ∧
      (encodeCommand id c = encodeCommand id' c' ↔ id = id' ∧ c = c') := by
  have hread := decode_encode_command id h
  refine ⟨hread, fun he => ?_, fun he => ?_⟩
  · rw [he, decode_encode_command id' h'] at hread
    cases hread
    exact ⟨rfl, rfl⟩
  · rw [he.1, he.2]

/-- The record of a comment whose text contains a space and a field of its own. -/
theorem command_records_comment : ∃ (id : RequestId) (c : Command ObjectId), Typed c ∧
    decodeCommand (encodeCommand id c) = .ok (id, c) := by
  have hid : OpaqueId (text "r-1") := by decide
  have hbody : text "- 4" ≠ [] ∧ (text "- 4").length ≤ MAX_BYTES := by decide
  have htyped : Typed ⟨⟨text "op"⟩, ⟨text "r-1", hid⟩, .comment (some 3) ⟨text "- 4", hbody⟩⟩ := by
    refine ⟨show OperationText (text "op") by decide, fun n hn => ?_, ?_⟩
    · rw [← Option.some.inj hn]
      decide
    · rw [ofText_text]
      exact Option.some_ne_none _
  exact ⟨⟨text "r-1", hid⟩, _, htyped, (command_records ⟨text "r-1", hid⟩ ⟨text "r-1", hid⟩ htyped htyped).1⟩

end Review

end Javelin
