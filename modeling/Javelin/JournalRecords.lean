import Javelin.Outbox

/-! # Records of the journal

The journal's records as a format of `Framing`.  `Record.Fits` is what `apply` asks of a record
and `Record.effect` what it does to the entries; the body of a fitting record is read back whole
(`apply_body`), its frame with anything behind it (`readFrame_frame`), and no proper prefix of a
frame is read at all (`readFrame_part`).  `format sha` puts this together. -/

namespace Javelin

open KeyedList Bytes

namespace Outbox

/-! ### Fields -/

theorem reads_u64 : Reads u64 (toLe 8) (fun n => n < 256 ^ 8) := reads_le _ 8

theorem reads_field : Reads field put (fun bytes => bytes.length < 256 ^ 4) :=
  reads_sized _ (reads_le _ 4)

theorem reads_textField :
    Reads textField (fun s => put (text s)) (fun s => (text s).length < 256 ^ 4) := by
  apply reads_field.decoded
  · intro s hs
    refine ⟨hs, ?_⟩
    rw [ofText_text]
    rfl
  · intro bytes s hb h
    cases hs : ofText bytes with
    | none =>
        rw [hs] at h
        cases h
    | some t =>
        rw [hs] at h
        injection h with h
        subst h
        rw [ofText_eq_some] at hs
        subst hs
        exact ⟨hb, rfl⟩

theorem reads_kindField : Reads kindField (fun kind => [kind.tag]) (fun _ => True) where
  read := by
    intro kind _ rest
    unfold kindField
    rw [(reads_byte Reason.malformedRecord).bind_eq trivial, Kind.fromTag_tag]
    rfl
  sound := by
    intro s kind rest h
    obtain ⟨tag, rest', _, hs, hk⟩ := (reads_byte Reason.malformedRecord).bind_eq_ok h
    refine ⟨trivial, ?_⟩
    have htag : ∀ k, Kind.fromTag tag = some k → tag = k.tag := by
      intro k hk
      unfold Kind.fromTag at hk
      split_ifs at hk <;> injection hk with hk <;> subst hk <;> assumption
    cases hf : Kind.fromTag tag with
    | none =>
        rw [hf] at hk
        cases hk
    | some k =>
        rw [hf] at hk
        injection hk with hk
        injection hk with h1 h2
        subst h1 h2
        rw [hs, htag k hf]

/-- The bytes of an operation ID are ASCII, so they are text. -/
theorem exists_text_of_operation (operation : Operation) : ∃ s, operation.1.text = text s := by
  apply exists_text_of_ascii
  have hvalid := operation.2
  simp only [validOperation, Bool.and_eq_true, List.all_eq_true] at hvalid
  intro b hb
  have hok := hvalid.2 b hb
  simp only [isAsciiAlphanumeric, List.contains_cons, List.contains_nil, Bool.or_false,
    Bool.or_eq_true, decide_eq_true_eq, beq_iff_eq, UInt8.le_iff_toNat_le, ← UInt8.toNat_inj] at hok
  rw [UInt8.lt_iff_toNat_lt]
  have h45 : (45 : UInt8).toNat = 45 := rfl
  have h95 : (95 : UInt8).toNat = 95 := rfl
  have h46 : (46 : UInt8).toNat = 46 := rfl
  have h57 : (57 : UInt8).toNat = 57 := rfl
  have h90 : (90 : UInt8).toNat = 90 := rfl
  have h122 : (122 : UInt8).toNat = 122 := rfl
  have h128 : (128 : UInt8).toNat = 128 := rfl
  omega

theorem reads_operationField : Reads operationField (fun operation => put operation.1.text)
    (fun operation => operation.1.text.length < 256 ^ 4) where
  read := by
    intro operation hlen rest
    have hparse := operation.parse_text
    obtain ⟨s, hs⟩ := exists_text_of_operation operation
    unfold operationField
    rw [hs] at hlen hparse ⊢
    rw [reads_textField.bind_eq hlen, hparse]
    rfl
  sound := by
    intro s operation rest h
    obtain ⟨value, rest', hlen, hs, hk⟩ := reads_textField.bind_eq_ok h
    cases hp : Operation.parse (text value) with
    | none =>
        rw [hp] at hk
        cases hk
    | some o =>
        rw [hp] at hk
        injection hk with hk
        injection hk with h1 h2
        subst h1 h2
        rw [Operation.text_of_parse hp]
        exact ⟨hlen, hs⟩

/-! ### Bodies -/

/-- What one append adds to the journal. -/
inductive Record where
  | queued (seq : ℕ) (kind : Kind) (scope : String) (operation : Operation) (payload : Str)
  | acked (seq : ℕ) (outcome : Str)

namespace Record

def body : Record → Str
  | queued seq kind scope operation payload => queuedBody seq kind scope operation payload
  | acked seq outcome => ackedBody seq outcome

def effect (entries : Entries) : Record → Entries
  | queued seq kind scope operation payload =>
      entries.insert seq ⟨seq, kind, scope, operation, payload, none⟩
  | acked seq outcome =>
      match entries.get? seq with
      | none => entries
      | some entry => entries.insert seq { entry with outcome := some outcome }

theorem effect_acked {entries : Entries} {seq : ℕ} {entry : Entry} (hget : entries.get? seq = some entry)
    (outcome : Str) : effect entries (acked seq outcome) =
      entries.insert seq { entry with outcome := some outcome } := by
  simp only [effect, hget]

/-- What `apply` and the limits ask of a record. -/
def Fits (entries : Entries) (r : Record) : Prop :=
  r.body.length ≤ MAX_BODY ∧ match r with
    | queued seq _ scope _ _ =>
        seq < 256 ^ 8 ∧ scope ≠ "" ∧ entries.get? seq = none
    | acked seq _ => seq < 256 ^ 8 ∧ ∃ entry, entries.get? seq = some entry ∧ entry.outcome = none

end Record

theorem length_put (bytes : Str) : (put bytes).length = 4 + bytes.length := by simp [put]

theorem length_queuedBody (seq : ℕ) (kind : Kind) (scope : String) (operation : Operation)
    (payload : Str) : (queuedBody seq kind scope operation payload).length =
      22 + (text scope).length + operation.1.text.length + payload.length := by
  simp only [queuedBody, length_put, List.length_cons, List.length_append, length_toLe]
  omega

theorem length_ackedBody (seq : ℕ) (outcome : Str) :
    (ackedBody seq outcome).length = 13 + outcome.length := by
  simp only [ackedBody, length_put, List.length_cons, List.length_append, length_toLe]
  omega

theorem max_body_lt : MAX_BODY < 256 ^ 4 := by decide

theorem record_queued {entries : Entries} {seq : ℕ} {kind : Kind} {scope : String}
    {operation : Operation} {payload : Str}
    (h : (Record.queued seq kind scope operation payload).Fits entries) :
    record entries (queuedBody seq kind scope operation payload) =
      .ok (entries.insert seq ⟨seq, kind, scope, operation, payload, none⟩, []) := by
  obtain ⟨hlen, hseq, hscope, hget⟩ := h
  have hmax := max_body_lt
  change (queuedBody seq kind scope operation payload).length ≤ MAX_BODY at hlen
  rw [length_queuedBody] at hlen
  have hread : queuedBody seq kind scope operation payload =
      [QUEUED] ++ (toLe 8 seq ++ ([kind.tag] ++ (put (text scope) ++ (put operation.1.text ++
        (put payload ++ []))))) := by
    simp [queuedBody]
  rw [hread]
  unfold record
  rw [(reads_byte Reason.malformedRecord).bind_eq trivial, if_pos rfl, reads_u64.bind_eq hseq,
    reads_kindField.bind_eq trivial, reads_textField.bind_eq (by omega),
    reads_operationField.bind_eq (by omega), reads_field.bind_eq (by omega)]
  show (if scope = "" ∨ (entries.get? seq).isSome ∨ ([] : Str) ≠ [] then refuse .malformedRecord
    else pure _ : Reader Reason Entries) [] = _
  rw [if_neg (by simp [hscope, hget])]
  rfl

theorem record_acked {entries : Entries} {seq : ℕ} {outcome : Str} {entry : Entry}
    (hlen : (ackedBody seq outcome).length ≤ MAX_BODY) (hseq : seq < 256 ^ 8)
    (hget : entries.get? seq = some entry) (hnone : entry.outcome = none) :
    record entries (ackedBody seq outcome) =
      .ok (entries.insert seq { entry with outcome := some outcome }, []) := by
  have hmax := max_body_lt
  rw [length_ackedBody] at hlen
  have hread : ackedBody seq outcome = [ACKED] ++ (toLe 8 seq ++ (put outcome ++ [])) := by
    simp [ackedBody]
  rw [hread]
  unfold record
  rw [(reads_byte Reason.malformedRecord).bind_eq trivial, if_neg (by decide), if_pos rfl,
    reads_u64.bind_eq hseq, reads_field.bind_eq (by omega)]
  show (match entries.get? seq with
    | none => refuse .malformedRecord
    | some entry =>
        if entry.outcome.isSome ∨ ([] : Str) ≠ [] then refuse .malformedRecord
        else pure (entries.insert seq { entry with outcome := some outcome } : Entries) :
    Reader Reason Entries) [] = _
  rw [hget]
  show (if entry.outcome.isSome ∨ ([] : Str) ≠ [] then refuse .malformedRecord
    else pure _ : Reader Reason Entries) [] = _
  rw [if_neg (by simp [hnone])]
  rfl

theorem apply_body {entries : Entries} {r : Record} (h : r.Fits entries) :
    apply r.body entries = .ok (r.effect entries) := by
  unfold apply
  cases r with
  | queued seq kind scope operation payload =>
      show (record entries (queuedBody seq kind scope operation payload)).map Prod.fst = _
      rw [record_queued h]
      rfl
  | acked seq outcome =>
      obtain ⟨hlen, hseq, entry, hget, hnone⟩ := h
      show (record entries (ackedBody seq outcome)).map Prod.fst = _
      rw [record_acked hlen hseq hget hnone]
      show _ = Except.ok (Record.effect entries (.acked seq outcome))
      rw [Record.effect_acked hget]
      rfl

/-! ### Frames -/

section digest
variable (sha : Str → Digest)

theorem length_frame (body : Str) : (frame sha body).length = HEADER + body.length := by
  have hd := (sha body).2
  have hh : HEADER = 36 := rfl
  simp only [frame, List.length_append, length_toLe]
  omega

theorem frame_ne_nil (body : Str) : frame sha body ≠ [] := by
  apply List.ne_nil_of_length_pos
  rw [length_frame]
  exact Nat.add_pos_left (by decide) _

/-- A whole frame is read, with anything behind it. -/
theorem readFrame_frame {body : Str} (h : body.length ≤ MAX_BODY) (rest : Str) :
    readFrame sha (frame sha body ++ rest) = .ok (body, (frame sha body).length) := by
  have hd := (sha body).2
  have hh : HEADER = 36 := rfl
  have hlt : body.length < 256 ^ 4 := h.trans_lt max_body_lt
  have hl := length_frame sha body
  have hhead : (toLe 4 body.length ++ (sha body).1).length = HEADER := by
    rw [List.length_append, length_toLe, hd]
    rfl
  have hsplit : frame sha body ++ rest = (toLe 4 body.length ++ (sha body).1) ++ (body ++ rest) := by
    simp [frame]
  have h4 : (frame sha body ++ rest).take 4 = toLe 4 body.length := by
    have ht : frame sha body ++ rest = toLe 4 body.length ++ ((sha body).1 ++ (body ++ rest)) := by
      simp [frame]
    rw [ht, List.take_left' (length_toLe 4 body.length)]
  have hbody : ((frame sha body ++ rest).drop HEADER).take body.length = body := by
    rw [hsplit, List.drop_left' hhead, List.take_left]
  have hdigest : ((frame sha body ++ rest).take HEADER).drop 4 = (sha body).1 := by
    rw [hsplit, List.take_left' hhead, List.drop_left' (length_toLe 4 body.length)]
  unfold readFrame
  simp only [h4, ofLe_toLe hlt, hbody, hdigest, List.length_append]
  rw [if_neg (by omega), if_neg (by omega), if_neg (by omega), if_neg (by simp), hl]

/-- A proper prefix of a frame is torn. -/
theorem readFrame_part {body : Str} (h : body.length ≤ MAX_BODY) {n : ℕ}
    (hn : n < (frame sha body).length) : readFrame sha ((frame sha body).take n) = .error .tornRecord := by
  have hh : HEADER = 36 := rfl
  have hlt : body.length < 256 ^ 4 := h.trans_lt max_body_lt
  have hl := length_frame sha body
  have hlen : ((frame sha body).take n).length = n := by
    rw [List.length_take]
    omega
  unfold readFrame
  by_cases hshort : n < HEADER
  · rw [if_pos (by omega)]
  · have h4 : ((frame sha body).take n).take 4 = toLe 4 body.length := by
      rw [List.take_take, Nat.min_eq_left (by omega)]
      unfold frame
      rw [List.append_assoc, List.take_left' (length_toLe 4 body.length)]
    simp only [h4, ofLe_toLe hlt, hlen]
    rw [if_neg hshort, if_neg (by omega), if_pos (by omega)]

/-- The journal's records as a format. -/
def format : Framing.Format Record Entries Reason where
  frame r := frame sha r.body
  effect r entries := r.effect entries
  Fits r entries := r.Fits entries
  read := readRecord sha
  frame_ne_nil r := frame_ne_nil sha r.body
  read_frame := by
    intro r entries h rest
    unfold readRecord
    rw [readFrame_frame sha h.1]
    show (apply r.body entries >>= fun e => Except.ok (e, (frame sha r.body).length)) = _
    rw [apply_body h]
    rfl
  read_part := by
    intro r entries n h hn
    refine ⟨.tornRecord, ?_⟩
    unfold readRecord
    rw [readFrame_part sha h.1 hn]
    rfl

end digest

end Outbox

end Javelin
