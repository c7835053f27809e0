import Javelin.Domain
import Javelin.Framing

/-! # The client outbox

A durable, append-only journal of requests that wait for a node.  The journal is a file of bytes:
`MAGIC`, then frames of `length | SHA-256 of body | body`.  `openJournal` scans it, `append` writes
one frame at the end of the last valid record, `enqueue` and `acknowledge` append the two kinds of
record, and `replay` delivers the pending records in order.

Every I/O call of an append can fail; a `Stop` says where.  A crash is the same stop followed by
`openJournal` of the bytes that are left.

`sha` is SHA-256, of which only the length of a digest is used.  The journal's name, its lock and
its creation under a temporary name are left out: a new journal is `MAGIC`. -/

namespace Javelin

open KeyedList Bytes

/-- A SHA-256 digest. -/
abbrev Digest := { s : Str // s.length = 32 }

def isAsciiAlphanumeric (b : UInt8) : Bool :=
  decide (48 ≤ b ∧ b ≤ 57) || decide (65 ≤ b ∧ b ≤ 90) || decide (97 ≤ b ∧ b ≤ 122)

/-- What `OperationId::parse` accepts: 1 to 128 ASCII letters, digits, `-`, `_` or `.`. -/
def validOperation (value : Str) : Bool :=
  !value.isEmpty && decide (value.length ≤ 128) &&
    value.all (fun b => isAsciiAlphanumeric b || [45, 95, 46].contains b)

/-- An operation ID that was parsed. -/
abbrev Operation := { operation : OperationId // validOperation operation.text = true }

/-- `OperationId::parse`. -/
def Operation.parse (value : Str) : Option Operation :=
  if h : validOperation value = true then some ⟨⟨value⟩, h⟩ else none

theorem Operation.parse_text (operation : Operation) : parse operation.1.text = some operation := by
  unfold parse
  rw [dif_pos operation.2]

theorem Operation.text_of_parse {value : Str} {operation : Operation}
    (h : parse value = some operation) : operation.1.text = value := by
  unfold parse at h
  split at h
  · injection h with h
    rw [← h]
  · cases h

namespace Outbox

/-- The bytes of `JVLOUTB1`. -/
def MAGIC : Str := text "JVLOUTB1"
/-- Length and digest. -/
def HEADER : ℕ := 4 + 32
/-- Largest record body. -/
def MAX_BODY : ℕ := 32 <<< 20
def QUEUED : UInt8 := 1
def ACKED : UInt8 := 2
/-- Largest file offset of the operating system. -/
def MAX_FILE : ℕ := 2 ^ 63 - 1

/-- What a record asks the node to do. -/
inductive Kind where
  | upload
  | append
  | publish
  | revise
deriving DecidableEq

namespace Kind

def tag : Kind → UInt8
  | upload => 1
  | append => 2
  | publish => 3
  | revise => 4

def fromTag (tag : UInt8) : Option Kind :=
  if tag = 1 then some upload
  else if tag = 2 then some append
  else if tag = 3 then some publish
  else if tag = 4 then some revise
  else none

@[simp] theorem fromTag_tag (kind : Kind) : fromTag kind.tag = some kind := by cases kind <;> rfl

end Kind

structure Entry where
  seq : ℕ
  kind : Kind
  scope : String
  operation : Operation
  payload : Str
  /-- The node's reply, once the record is acknowledged. -/
  outcome : Option Str
deriving DecidableEq

abbrev Entries := SortedMap ℕ Entry

/-- Why a frame or its body is not a record. -/
inductive Reason where
  | tornRecord
  | malformedRecord
  | checksumMismatch
deriving DecidableEq

/-- A journal tail that was ignored when the journal was opened. -/
structure Damage where
  offset : ℕ
  bytes : ℕ
  reason : Reason
deriving DecidableEq

/-- The errors the outbox raises. -/
inductive Failure where
  | invalidInput (text : String)
  | corruptRepository (text : String)
  | io
deriving DecidableEq

/-- Why the node did not decide a record. -/
inductive Fault where
  | nodeUnavailable (text : String)
  | controlPlaneUnavailable (text : String)
deriving DecidableEq

end Outbox

/-- An open outbox: the journal's bytes, the copies of damaged tails beside it, and what the
handle keeps in memory. -/
structure Outbox where
  file : Str
  aside : List Str
  entries : Outbox.Entries
  nextSeq : ℕ
  /-- End of the last valid record. -/
  validLen : ℕ
  damage : Option Outbox.Damage
  repaired : Bool

namespace Outbox

/-! ### Records -/

/-- A `u32` length, then the bytes. -/
def put (bytes : Str) : Str := toLe 4 bytes.length ++ bytes

/-- The body of a queued record. -/
def queuedBody (seq : ℕ) (kind : Kind) (scope : String) (operation : Operation) (payload : Str) : Str :=
  QUEUED :: (toLe 8 seq ++ kind.tag :: (put (text scope) ++ put operation.1.text ++ put payload))

/-- The body of an acknowledgement. -/
def ackedBody (seq : ℕ) (outcome : Str) : Str := ACKED :: (toLe 8 seq ++ put outcome)

/-- `Reader::u64`. -/
def u64 : Reader Reason ℕ := readLe .malformedRecord 8

/-- `Reader::field`. -/
def field : Reader Reason Str := sized .malformedRecord (readLe .malformedRecord 4)

/-- `Reader::text`. -/
def textField : Reader Reason String :=
  decoded field (fun bytes => (ofText bytes).elim (.error .malformedRecord) .ok)

def kindField : Reader Reason Kind := do
  let tag ← readByte .malformedRecord
  (Kind.fromTag tag).elim (refuse .malformedRecord) pure

def operationField : Reader Reason Operation := do
  let value ← textField
  (Operation.parse (text value)).elim (refuse .malformedRecord) pure

/-- Reads one record body into the entries. -/
def record (entries : Entries) : Reader Reason Entries := do
  let tag ← readByte .malformedRecord
  if tag = QUEUED then
    let seq ← u64
    let kind ← kindField
    let scope ← textField
    let operation ← operationField
    let payload ← field
    let rest ← get
    if scope = "" ∨ (entries.get? seq).isSome ∨ rest ≠ [] then refuse .malformedRecord
    else pure (entries.insert seq ⟨seq, kind, scope, operation, payload, none⟩)
  else if tag = ACKED then
    let seq ← u64
    let outcome ← field
    let rest ← get
    match entries.get? seq with
    | none => refuse .malformedRecord
    | some entry =>
        if entry.outcome.isSome ∨ rest ≠ [] then refuse .malformedRecord
        else pure (entries.insert seq { entry with outcome := some outcome })
  else refuse .malformedRecord

def apply (body : Str) (entries : Entries) : Except Reason Entries :=
  (record entries body).map Prod.fst

section digest
variable (sha : Str → Digest)

/-- `length | digest | body`. -/
def frame (body : Str) : Str := toLe 4 body.length ++ (sha body).1 ++ body

/-- The body of the first record in `rest`, and the bytes it occupies. -/
def readFrame (rest : Str) : Except Reason (Str × ℕ) :=
  if rest.length < HEADER then .error .tornRecord
  else
    let length := ofLe (rest.take 4)
    if MAX_BODY < length then .error .malformedRecord
    else if rest.length < HEADER + length then .error .tornRecord
    else
      let body := (rest.drop HEADER).take length
      if (sha body).1 ≠ (rest.take HEADER).drop 4 then .error .checksumMismatch
      else .ok (body, HEADER + length)

/-- One step of the scan: a frame, applied. -/
def readRecord (rest : Str) (entries : Entries) : Except Reason (Entries × ℕ) := do
  let (body, used) ← readFrame sha rest
  let entries ← apply body entries
  .ok (entries, used)

/-! ### Opening -/

/-- `Outbox::open` of a journal with these bytes. -/
def openJournal (bytes : Str) (aside : List Str) : Except Failure Outbox :=
  if bytes.length < MAGIC.length ∧ ¬ bytes <+: MAGIC then
    .error (.corruptRepository "not an outbox journal")
  else if MAGIC.length ≤ bytes.length ∧ bytes.take MAGIC.length ≠ MAGIC then
    .error (.corruptRepository "not an outbox journal")
  else
    -- A header torn by a crash during creation is written again.
    let file := if bytes.length < MAGIC.length then MAGIC else bytes
    let (entries, offset, why) :=
      Framing.scan (readRecord sha) file.length (file.drop MAGIC.length) MAGIC.length
        (SortedMap.empty : Entries)
    .ok
      { file := file
        aside := aside
        entries := entries
        nextSeq := (entries.keys.getLast?).elim 1 (· + 1)
        validLen := offset
        damage := why.map (fun reason => ⟨offset, file.length - offset, reason⟩)
        repaired := false }

/-- A journal just created. -/
def create : Outbox := ⟨MAGIC, [], SortedMap.empty, 1, MAGIC.length, none, false⟩

/-! ### Appending -/

/-- Where an append stops when one of its I/O calls fails. -/
inductive Stop where
  /-- The damaged tail is not completely copied. -/
  | saving
  /-- The copy is durable, and the journal not yet truncated. -/
  | saved
  /-- The journal is truncated, and the call that follows fails. -/
  | truncated
  /-- This many bytes of the frame reached the journal. -/
  | writing (n : ℕ)
deriving DecidableEq

/-- Keeps the ignored tail in a sibling file, then truncates the journal to its last valid record.
Returns whether it got to the end. -/
def moveDamageAside (stop : Option Stop) (o : Outbox) : Bool × Outbox :=
  match o.damage with
  | none => (true, o)
  | some damage =>
      -- `read_exact` needs the whole tail.
      if o.file.length < damage.offset + damage.bytes then (false, o)
      else
        let tail := (o.file.drop damage.offset).take damage.bytes
        match stop with
        | some .saving => (false, o)
        | some .saved => (false, { o with aside := o.aside ++ [tail] })
        | some .truncated =>
            (false, { o with aside := o.aside ++ [tail], file := o.file.take o.validLen })
        | _ =>
            (true, { o with aside := o.aside ++ [tail], file := o.file.take o.validLen, repaired := true })

/-- How an append ended: the record is durable, its whole frame was written but the call failed, or
less than its frame was written. -/
inductive Appended where
  | ok
  | unsynced
  | failed
deriving DecidableEq

/-- The bytes of a frame that reach the journal; none goes past the largest offset. -/
def written (stop : Option Stop) (o : Outbox) (frame : Str) : Str :=
  let n := match stop with
    | some (.writing n) => n
    | _ => frame.length
  frame.take (min n (MAX_FILE - o.validLen))

/-- The second half of `append`: the frame at the end of the last valid record. -/
def writeFrame (stop : Option Stop) (body : Str) (o : Outbox) : Appended × Outbox :=
  let part := written stop o (frame sha body)
  let o := { o with file := Framing.overwrite o.file o.validLen part }
  if part.length < (frame sha body).length then (.failed, o)
  else match stop with
    | some (.writing _) => (.unsynced, o)
    | _ => (.ok, { o with validLen := o.validLen + (frame sha body).length })

/-- `Outbox::append`, which returns `Ok` when it ends in `Appended.ok`. -/
def append (stop : Option Stop) (body : Str) (o : Outbox) : Appended × Outbox :=
  let (moved, o) := if o.damage.isSome && !o.repaired then moveDamageAside stop o else (true, o)
  if !moved then (.failed, o) else writeFrame sha stop body o

/-- Durably queues one record and returns its sequence number. -/
def enqueue (stop : Option Stop) (kind : Kind) (scope : String) (operation : Operation) (payload : Str)
    (o : Outbox) : Except Failure ℕ × Outbox :=
  if scope = "" then (.error (.invalidInput "outbox scope must not be empty"), o)
  else
    let seq := o.nextSeq
    let body := queuedBody seq kind scope operation payload
    if MAX_BODY < body.length then
      (.error (.invalidInput ("outbox record is " ++ toString body.length ++ " bytes, over the " ++
        toString MAX_BODY ++ "-byte limit")), o)
    else
      match append sha stop body o with
      | (.ok, o) =>
          (.ok seq,
            { o with
              entries := o.entries.insert seq ⟨seq, kind, scope, operation, payload, none⟩
              nextSeq := o.nextSeq + 1 })
      | (_, o) => (.error .io, o)

/-- Durably records the node's reply to a record. -/
def acknowledge (stop : Option Stop) (seq : ℕ) (outcome : Str) (o : Outbox) : Except Failure Unit × Outbox :=
  let body := ackedBody seq outcome
  if MAX_BODY < body.length then
    (.error (.invalidInput ("node reply for record " ++ toString seq ++ " is over the " ++
      toString MAX_BODY ++ "-byte limit")), o)
  else
    match append sha stop body o with
    | (.ok, o) =>
        (.ok (),
          match o.entries.get? seq with
          | none => o
          | some entry => { o with entries := o.entries.insert seq { entry with outcome := some outcome } })
    | (_, o) => (.error .io, o)

/-! ### Replay -/

/-- Records not yet acknowledged, in journal order. -/
def pending (o : Outbox) : List Entry :=
  (o.entries.toList.map Prod.snd).filter (fun entry => entry.outcome.isNone)

/-- What a pass of replay reports. -/
structure Replay where
  delivered : List (ℕ × Str)
  stalled : Option (ℕ × Fault)
deriving DecidableEq

/-- What the world does to one delivery: the transport's answer, and where the append of the
outcome stops. -/
structure Turn where
  answer : Except Fault Str
  stop : Option Stop

/-- One delivery: the record given to the transport, the journal at that moment, and the answer. -/
structure Delivery where
  entry : Entry
  journal : Str
  answer : Except Fault Str

/-- What a pass leaves: its result, none when the process stopped in it, the outbox, and the
deliveries made. -/
structure Pass where
  result : Option (Except Failure Replay)
  outbox : Outbox
  sent : List Delivery

/-- Delivers the records of `due` in order until one faults.  The pass is cut off where the turns
run out. -/
def replayDue : List ℕ → List Turn → Outbox → Replay → Pass
  | [], _, o, report => ⟨some (.ok report), o, []⟩
  | _ :: _, [], o, _ => ⟨none, o, []⟩
  | seq :: due, turn :: turns, o, report =>
      match o.entries.get? seq with
      | none => ⟨none, o, []⟩
      | some entry =>
          match turn.answer with
          | .error fault =>
              ⟨some (.ok { report with stalled := some (seq, fault) }), o, [⟨entry, o.file, turn.answer⟩]⟩
          | .ok outcome =>
              match acknowledge sha turn.stop seq outcome o with
              | (.error failure, o') => ⟨some (.error failure), o', [⟨entry, o.file, turn.answer⟩]⟩
              | (.ok (), o') =>
                  let pass := replayDue due turns o'
                    { report with delivered := report.delivered ++ [(seq, outcome)] }
                  { pass with sent := ⟨entry, o.file, turn.answer⟩ :: pass.sent }

/-- `Outbox::replay`. -/
def replay (turns : List Turn) (o : Outbox) : Pass :=
  replayDue sha (o.pending.map Entry.seq) turns o ⟨[], none⟩

end digest

end Outbox

end Javelin
