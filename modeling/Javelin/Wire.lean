import Javelin.Texts

/-! # Wire primitives

The fields of a protocol message.  A reader takes a field from the front of the bytes, and bounds every length
before it reads so many; the writer beside it writes the field.  For each of them a `Reads` law says that the
two are inverse on the values that the writer's caller lets through (`reads_kind` to `reads_attribution`).

An error's detail is cut at a character boundary: `truncateUtf8` keeps its longest prefix of whole characters
(`truncateUtf8_longest`). -/

namespace Bytes

variable {ε α β : Type}

/-- A value converted after it is read. -/
def checked (r : Reader ε α) (f : α → Except ε β) : Reader ε β := do
  let a ← r
  f a

/-- A checked conversion of a field. -/
theorem Reads.checked {r : Reader ε α} {w : α → List UInt8} {P : α → Prop} (h : Reads r w P)
    {f : α → Except ε β} (back : β → α) {Q : β → Prop} (hread : ∀ b, Q b → P (back b) ∧ f (back b) = .ok b)
    (hsound : ∀ a b, P a → f a = .ok b → Q b ∧ back b = a) :
    Reads (checked r f) (fun b => w (back b)) Q where
  read := by
    intro b hb rest
    obtain ⟨hp, hf⟩ := hread b hb
    unfold Bytes.checked
    rw [h.bind_eq hp rest]
    show (f (back b) >>= fun c => Except.ok (c, rest)) = _
    rw [hf]
    rfl
  sound := by
    intro s b rest hs
    obtain ⟨a, rest', hp, hsw, hk⟩ := h.bind_eq_ok hs
    change (f a >>= fun c => Except.ok (c, rest')) = .ok (b, rest) at hk
    cases hf : f a with
    | error e =>
        rw [hf] at hk
        cases hk
    | ok c =>
        rw [hf] at hk
        cases hk
        obtain ⟨hq, hback⟩ := hsound a b hp hf
        rw [hback]
        exact ⟨hq, hsw⟩

/-- So many values one after the other. -/
def readMany (r : Reader ε α) : ℕ → Reader ε (List α)
  | 0 => return []
  | n + 1 => do
      let a ← r
      let rest ← readMany r n
      return a :: rest

theorem reads_many {r : Reader ε α} {w : α → List UInt8} {P : α → Prop} (h : Reads r w P) (n : ℕ) :
    Reads (readMany r n) (fun as => as.flatMap w) (fun as => as.length = n ∧ ∀ a ∈ as, P a) where
  read := by
    intro as hl rest
    induction n generalizing as with
    | zero =>
        obtain rfl := List.length_eq_zero_iff.mp hl.1
        rfl
    | succ n ih =>
        obtain ⟨a, as, rfl⟩ := List.exists_cons_of_length_eq_add_one hl.1
        have hrest := ih as ⟨Nat.succ.inj hl.1, fun x hx => hl.2 x (List.mem_cons_of_mem a hx)⟩
        unfold readMany
        rw [List.flatMap_cons, List.append_assoc, h.bind_eq (hl.2 a List.mem_cons_self)]
        show (readMany r n (as.flatMap w ++ rest) >>= fun p => Except.ok (a :: p.1, p.2)) = _
        rw [hrest]
        rfl
  sound := by
    intro s as rest hs
    induction n generalizing s as with
    | zero =>
        cases hs
        exact ⟨⟨rfl, fun a ha => (by cases ha)⟩, rfl⟩
    | succ n ih =>
        obtain ⟨a, s', ha, rfl, hk⟩ := h.bind_eq_ok hs
        change (readMany r n s' >>= fun p => Except.ok (a :: p.1, p.2)) = _ at hk
        cases hm : readMany r n s' with
        | error e =>
            rw [hm] at hk
            cases hk
        | ok p =>
            rw [hm] at hk
            cases hk
            obtain ⟨⟨hlen, hall⟩, hsw⟩ := ih s' p.1 hm
            refine ⟨⟨congrArg Nat.succ hlen, fun x hx => ?_⟩, ?_⟩
            · obtain rfl | hx := List.mem_cons.mp hx
              · exact ha
              · exact hall x hx
            · rw [hsw, List.flatMap_cons, List.append_assoc]

end Bytes

namespace Javelin.Wire

open Bytes Protocol Collaboration

/-- Readers of fields. -/
abbrev FieldReader := Reader ProtocolError

def malformed (detail : String) : ProtocolError := ⟨"malformed", detail⟩
def limit (detail : String) : ProtocolError := ⟨"limit_exceeded", detail⟩
def truncated : ProtocolError := ⟨"truncated", "stream ended inside a frame"⟩

/-- `ProtocolError::from(Error::InvalidInput)`. -/
def invalidInput (detail : String) : ProtocolError := ⟨"invalid_input", "invalid input: " ++ detail⟩

/-! ### Values -/

/-- The values of the identifier types. -/
abbrev WireOperation := { o : OperationId // OperationText o.text }
abbrev WireLayer := { l : LayerId // OperationText l.text }
abbrev WireVersion := { n : VersionNumber // n ≤ MAX_VERSION }
abbrev WirePath := { p : RepoPath // p.Valid ∧ ofText p.asStr ≠ none }

/-- The message ends in a field. -/
def endsInside : ProtocolError := malformed "message ends inside a field"

/-! ### Numbers -/

def readU8 : FieldReader UInt8 := readByte endsInside

def readU16 : FieldReader UInt16 := checked (readBe endsInside 2) (fun n => .ok (UInt16.ofNat n))
def readU32 : FieldReader UInt32 := checked (readBe endsInside 4) (fun n => .ok (UInt32.ofNat n))
def readU64 : FieldReader UInt64 := checked (readBe endsInside 8) (fun n => .ok (UInt64.ofNat n))

def putU16 (n : UInt16) : Str := toBe 2 n.toNat
def putU32 (n : UInt32) : Str := toBe 4 n.toNat
def putU64 (n : UInt64) : Str := toBe 8 n.toNat

theorem reads_u8 : Reads readU8 (fun b => [b]) (fun _ => True) := reads_byte endsInside

theorem reads_u16 : Reads readU16 putU16 (fun _ => True) :=
  (reads_be endsInside 2).checked _ (fun n _ => ⟨n.toNat_lt, congrArg Except.ok UInt16.ofNat_toNat⟩)
    (fun n v hn h => by
      cases h
      exact ⟨trivial, UInt16.toNat_ofNat_of_lt' hn⟩)

theorem reads_u32 : Reads readU32 putU32 (fun _ => True) :=
  (reads_be endsInside 4).checked _ (fun n _ => ⟨n.toNat_lt, congrArg Except.ok UInt32.ofNat_toNat⟩)
    (fun n v hn h => by
      cases h
      exact ⟨trivial, UInt32.toNat_ofNat_of_lt' hn⟩)

theorem reads_u64 : Reads readU64 putU64 (fun _ => True) :=
  (reads_be endsInside 8).checked _ (fun n _ => ⟨n.toNat_lt, congrArg Except.ok UInt64.ofNat_toNat⟩)
    (fun n v hn h => by
      cases h
      exact ⟨trivial, UInt64.toNat_ofNat_of_lt' hn⟩)

/-- A version number is a `u64` in range. -/
def readVersion : FieldReader WireVersion :=
  checked (readBe endsInside 8) (fun n => if h : n ≤ MAX_VERSION then .ok ⟨n, h⟩
    else .error (invalidInput "World version exceeds storage range"))

def putVersion (n : WireVersion) : Str := toBe 8 n.1

theorem reads_version : Reads readVersion putVersion (fun _ => True) := by
  refine (reads_be endsInside 8).checked _ (fun n _ => ⟨lt_of_le_of_lt n.2 (by decide), dif_pos n.2⟩)
    (fun n v _ h => ⟨trivial, ?_⟩)
  split at h
  · cases h
    rfl
  · cases h

/-- A number of `w` bytes within its limit. -/
def readWithin (w max : ℕ) (e : ProtocolError) : FieldReader ℕ :=
  checked (readBe endsInside w) (fun n => if n ≤ max then .ok n else .error e)

theorem reads_within {w max : ℕ} (hmax : max < 256 ^ w) (e : ProtocolError) :
    Reads (readWithin w max e) (toBe w) (fun n => n ≤ max) := by
  refine (reads_be endsInside w).checked _ (fun n hn => ⟨lt_of_le_of_lt hn hmax, if_pos hn⟩) (fun n v _ h => ?_)
  split at h
  · cases h
    exact ⟨by assumption, rfl⟩
  · cases h

/-- A count or a length within its limit. -/
def readCount (max : ℕ) (e : ProtocolError) : FieldReader ℕ := readWithin 4 max e

def putCount (n : ℕ) : Str := toBe 4 n

theorem reads_count {max : ℕ} (hmax : max < 256 ^ 4) (e : ProtocolError) :
    Reads (readCount max e) putCount (fun n => n ≤ max) := reads_within hmax e

/-! ### IDs -/

def readId : FieldReader ObjectId :=
  checked (take endsInside 32) (fun bs => if h : bs.length = 32 then .ok ⟨bs, h⟩ else .error endsInside)

def putId (id : ObjectId) : Str := id.1

theorem reads_id : Reads readId putId (fun _ => True) := by
  refine (reads_take endsInside 32).checked _ (fun id _ => ⟨id.2, dif_pos id.2⟩) (fun bs id hl h => ?_)
  rw [dif_pos hl] at h
  cases h
  exact ⟨trivial, rfl⟩

/-! ### Codes -/

/-- A byte that stands for a value by this table. -/
def readCode {α : Type} (table : List (UInt8 × α)) (e : ProtocolError) : FieldReader α :=
  checked readU8 (fun b => match table.lookup b with
    | some a => .ok a
    | none => .error e)

theorem reads_code {α : Type} {table : List (UInt8 × α)} {code : α → UInt8} (e : ProtocolError)
    (hread : ∀ a, table.lookup (code a) = some a) (hcode : ∀ p ∈ table, code p.2 = p.1) :
    Reads (readCode table e) (fun a => [code a]) (fun _ => True) := by
  refine reads_u8.checked _ (fun a _ => ⟨trivial, by rw [hread]⟩) (fun b a _ h => ⟨trivial, ?_⟩)
  cases hl : table.lookup b with
  | none =>
      rw [hl] at h
      cases h
  | some a' =>
      rw [hl] at h
      cases h
      obtain ⟨l₁, l₂, htable, _⟩ := List.lookup_eq_some_iff.mp hl
      exact hcode (b, a) (by rw [htable]; simp)

/-- The wire code of an object kind. -/
def kindCode : Kind → UInt8
  | .blob => 1
  | .checkpoint => 3
  | .tree => 4

/-- Largest encoded object of a kind. -/
def kindLimit : Kind → ℕ
  | .blob => MAX_BLOB
  | .checkpoint => MAX_CHECKPOINT
  | .tree => MAX_TREE

def readKind : FieldReader Kind :=
  readCode [(1, .blob), (3, .checkpoint), (4, .tree)] (malformed "unknown object kind")

def flagCode (b : Bool) : UInt8 := if b then 1 else 0

/-- One canonical flag byte: 0 or 1, nothing else. -/
def readFlag : FieldReader Bool := readCode [(0, false), (1, true)] (malformed "invalid flag")

def roleCode : Role → UInt8
  | .read => 1
  | .review => 2
  | .maintain => 3

def readRole : FieldReader Role :=
  readCode [(1, .read), (2, .review), (3, .maintain)] (malformed "unknown role")

def visibilityCode : Visibility → UInt8
  | .public => 0
  | .private => 1

def readVisibility : FieldReader Visibility :=
  readCode [(0, .public), (1, .private)] (malformed "unknown visibility")

/-- Layer state as the node reports it. -/
inductive LayerStatus where
  | active
  | published
  | discarded
deriving DecidableEq

def LayerStatus.code : LayerStatus → UInt8
  | .active => 0
  | .published => 1
  | .discarded => 2

def readLayerStatus : FieldReader LayerStatus :=
  readCode [(0, .active), (1, .published), (2, .discarded)] (malformed "unknown Layer state")

/-- Publish Request state. -/
inductive RequestStatus where
  | open
  | published
  | closed
deriving DecidableEq

def RequestStatus.code : RequestStatus → UInt8
  | .open => 0
  | .published => 1
  | .closed => 2

def readRequestStatus : FieldReader RequestStatus :=
  readCode [(0, .open), (1, .published), (2, .closed)] (malformed "unknown request state")

/-- `Conclusion::from_code`. -/
def readConclusion : FieldReader Codec.Conclusion :=
  readCode [(0, .success), (1, .failure), (2, .neutral), (3, .cancelled), (4, .timedOut), (5, .skipped)]
    (malformed "unknown conclusion")

theorem reads_kind : Reads readKind (fun k => [kindCode k]) (fun _ => True) :=
  reads_code _ (fun k => by cases k <;> rfl) (by decide)

theorem reads_flag : Reads readFlag (fun b => [flagCode b]) (fun _ => True) :=
  reads_code _ (fun b => by cases b <;> rfl) (by simp [flagCode])

theorem reads_role : Reads readRole (fun r => [roleCode r]) (fun _ => True) :=
  reads_code _ (fun r => by cases r <;> rfl) (by decide)

theorem reads_visibility : Reads readVisibility (fun v => [visibilityCode v]) (fun _ => True) :=
  reads_code _ (fun v => by cases v <;> rfl) (by decide)

theorem reads_layerStatus : Reads readLayerStatus (fun s => [s.code]) (fun _ => True) :=
  reads_code _ (fun s => by cases s <;> rfl) (by decide)

theorem reads_requestStatus : Reads readRequestStatus (fun s => [s.code]) (fun _ => True) :=
  reads_code _ (fun s => by cases s <;> rfl) (by decide)

theorem reads_conclusion : Reads readConclusion (fun c => [c.code]) (fun _ => True) :=
  reads_code _ (fun c => by cases c <;> rfl) (by decide)

/-! ### Optional fields -/

/-- A flag, then the value; absence is the zero value, and nothing else. -/
def readOptional {α : Type} [DecidableEq α] (r : FieldReader α) (zero : α) (e : ProtocolError) :
    FieldReader (Option α) := do
  let present ← readFlag
  checked r (fun a => if present then .ok (some a) else if a = zero then .ok none else .error e)

def putOptional {α : Type} (put : α → Str) (zero : α) (a : Option α) : Str :=
  flagCode a.isSome :: put (a.getD zero)

theorem reads_optional {α : Type} [DecidableEq α] {r : FieldReader α} {put : α → Str}
    (h : Reads r put (fun _ => True)) (zero : α) (e : ProtocolError) :
    Reads (readOptional r zero e) (putOptional put zero) (fun _ => True) where
  read := by
    intro a _ rest
    show readOptional r zero e ([flagCode a.isSome] ++ (put (a.getD zero) ++ rest)) = _
    unfold readOptional checked
    rw [reads_flag.bind_eq trivial, h.bind_eq trivial]
    cases a with
    | none =>
        show ((if (none : Option α).isSome = true then _ else _ : Except ProtocolError (Option α)) >>=
          fun c => Except.ok (c, rest)) = _
        rw [if_neg (by simp), if_pos (show (none : Option α).getD zero = zero from rfl)]
        rfl
    | some a => rfl
  sound := by
    intro s a rest hs
    obtain ⟨present, s', _, rfl, hk⟩ := reads_flag.bind_eq_ok hs
    obtain ⟨v, s'', _, rfl, hv⟩ := h.bind_eq_ok hk
    refine ⟨trivial, ?_⟩
    cases present with
    | true =>
        cases hv
        rfl
    | false =>
        change ((if v = zero then _ else _ : Except ProtocolError (Option α)) >>=
          fun c => Except.ok (c, s'')) = _ at hv
        split at hv
        · rename_i hz
          cases hv
          rw [hz]
          rfl
        · cases hv

/-- The all-zero ID that stands for absence. -/
def ABSENT_ID : ObjectId := ⟨List.replicate 32 0, length_zeros⟩

def readOptionalId : FieldReader (Option ObjectId) :=
  readOptional readId ABSENT_ID (malformed "absent ID must be zeroed")

def putOptionalId : Option ObjectId → Str := putOptional putId ABSENT_ID

def readOptionalU32 : FieldReader (Option UInt32) :=
  readOptional readU32 0 (malformed "absent number must be zero")

def putOptionalU32 : Option UInt32 → Str := putOptional putU32 0

theorem reads_optionalId : Reads readOptionalId putOptionalId (fun _ => True) := reads_optional reads_id _ _

theorem reads_optionalU32 : Reads readOptionalU32 putOptionalU32 (fun _ => True) := reads_optional reads_u32 _ _

/-! ### Text -/

/-- A length of one byte, then so many bytes. -/
def readShort : FieldReader Str := sized endsInside (checked readU8 (fun b => .ok b.toNat))

/-- Text from its bytes. -/
def utf8 (detail : String) (bytes : Str) : Except ProtocolError String :=
  match ofText bytes with
  | some s => .ok s
  | none => .error (malformed detail)

def readShortStr : FieldReader String := checked readShort (utf8 "text is not UTF-8")

def putShort (s : String) : Str := Codec.putShort (text s)

theorem utf8_eq_ok {detail : String} {bytes : Str} {s : String} : utf8 detail bytes = .ok s ↔ bytes = text s := by
  rw [← ofText_eq_some]
  unfold utf8
  cases ofText bytes with
  | none => simp
  | some t => simp

theorem reads_short : Reads readShort Codec.putShort (fun bs => bs.length ≤ 255) := by
  have hlen : Reads (checked readU8 (fun b => .ok b.toNat)) (fun n => [UInt8.ofNat n]) (fun n => n ≤ 255) := by
    refine reads_u8.checked _ (fun n hn => ⟨trivial, ?_⟩) (fun b n _ h => ?_)
    · rw [UInt8.toNat_ofNat', Nat.mod_eq_of_lt (by omega)]
    · cases h
      exact ⟨Nat.le_of_lt_succ b.toNat_lt, UInt8.ofNat_toNat⟩
  exact reads_sized endsInside hlen

theorem reads_shortStr : Reads readShortStr putShort (fun s => (text s).length ≤ 255) :=
  reads_short.checked _ (fun _ hs => ⟨hs, utf8_eq_ok.mpr rfl⟩) (fun bs s hbs h => by
    rw [utf8_eq_ok] at h
    exact ⟨by rwa [← h], h.symm⟩)

/-- An identifier: a text that the identifier's type accepts. -/
def readParsed {α : Type} (parse : Str → Option α) (e : ProtocolError) : FieldReader α :=
  checked readShort (fun bs => (utf8 "text is not UTF-8" bs).bind (fun _ =>
    match parse bs with
    | some a => .ok a
    | none => .error e))

/-- Identifiers of visible ASCII. -/
theorem reads_parsed {α : Type} {parse : Str → Option α} (e : ProtocolError) (txt : α → Str)
    (hparse : ∀ bs a, parse bs = some a ↔ txt a = bs) (hlen : ∀ a, (txt a).length ≤ 255)
    (htext : ∀ a, ofText (txt a) ≠ none) :
    Reads (readParsed parse e) (fun a => Codec.putShort (txt a)) (fun _ => True) := by
  refine reads_short.checked _ (fun a _ => ⟨hlen a, ?_⟩) (fun bs a _ h => ⟨trivial, ?_⟩)
  · obtain ⟨s, hs⟩ := Option.ne_none_iff_exists'.mp (htext a)
    rw [utf8_eq_ok.mpr (ofText_eq_some.mp hs)]
    show (match parse (txt a) with | some a => _ | none => _ : Except ProtocolError α) = _
    rw [(hparse (txt a) a).mpr rfl]
  · cases hu : utf8 "text is not UTF-8" bs with
    | error _ =>
        rw [hu] at h
        cases h
    | ok s =>
        rw [hu] at h
        change (match parse bs with | some a => _ | none => _ : Except ProtocolError α) = _ at h
        cases hp : parse bs with
        | none =>
            rw [hp] at h
            cases h
        | some a' =>
            rw [hp] at h
            cases h
            exact (hparse bs a).mp hp

def readOperation : FieldReader WireOperation :=
  readParsed (fun bs => if h : OperationText bs then some ⟨⟨bs⟩, h⟩ else none)
    (invalidInput "operation ID must contain 1..128 ASCII letters, digits, '-', '_' or '.'")

def putOperation (operation : WireOperation) : Str := Codec.putShort operation.1.text

def readLayer : FieldReader WireLayer :=
  readParsed (fun bs => if h : OperationText bs then some ⟨⟨bs⟩, h⟩ else none) (malformed "invalid Layer ID")

def putLayer (layer : WireLayer) : Str := Codec.putShort layer.1.text

def readRequest : FieldReader RequestId := readParsed RequestId.parse (malformed "invalid request ID")

def putRequest (request : RequestId) : Str := Codec.putShort request.text

theorem reads_operation : Reads readOperation putOperation (fun _ => True) := by
  refine reads_parsed _ (fun o : WireOperation => o.1.text) (fun bs o => ?_)
    (fun o => le_trans o.2.2.1 (by decide)) (fun o => ascii_of_plain (plain_operation o.2))
  constructor
  · intro h
    split at h
    · cases h
      rfl
    · cases h
  · rintro rfl
    exact dif_pos o.2

theorem reads_layer : Reads readLayer putLayer (fun _ => True) := by
  refine reads_parsed _ (fun l : WireLayer => l.1.text) (fun bs l => ?_)
    (fun l => le_trans l.2.2.1 (by decide)) (fun l => ascii_of_plain (plain_operation l.2))
  constructor
  · intro h
    split at h
    · cases h
      rfl
    · cases h
  · rintro rfl
    exact dif_pos l.2

theorem reads_request : Reads readRequest putRequest (fun _ => True) := by
  refine reads_parsed _ RequestId.text (fun bs r => ?_) (fun r => le_trans r.valid.2.1 (by decide))
    (fun r => ascii_of_plain (plain_opaqueId r.valid))
  unfold RequestId.parse
  constructor
  · intro h
    split at h
    · cases h
      rfl
    · cases h
  · rintro rfl
    exact dif_pos r.valid

/-- A repository path: a length of two bytes, then text that parses. -/
def readPath : FieldReader WirePath :=
  checked (sized endsInside (readWithin 2 MAX_PATH (limit "path exceeds limit")))
    (fun bs => (utf8 "path is not UTF-8" bs).bind (fun _ =>
      match RepoPath.parse bs with
      | some p => if h : p.Valid ∧ ofText p.asStr ≠ none then .ok ⟨p, h⟩
          else .error (malformed "invalid repository path")
      | none => .error (malformed "invalid repository path")))

/-- `put_long`. -/
def putPath (path : WirePath) : Str := toBe 2 path.1.asStr.length ++ path.1.asStr

theorem reads_path : Reads readPath putPath (fun _ => True) := by
  refine (reads_sized endsInside (reads_within (by decide) _)).checked (fun p : WirePath => p.1.asStr)
    (fun p _ => ⟨p.2.1.2.2, ?_⟩) (fun bs p _ h => ⟨trivial, ?_⟩)
  · obtain ⟨s, hs⟩ := Option.ne_none_iff_exists'.mp p.2.2
    rw [utf8_eq_ok.mpr (ofText_eq_some.mp hs)]
    show (match RepoPath.parse p.1.asStr with | some p => _ | none => _ : Except ProtocolError WirePath) = _
    rw [RepoPath.parse_eq_ok.mpr ⟨p.2.1, rfl⟩]
    exact dif_pos p.2
  · cases hu : utf8 "path is not UTF-8" bs with
    | error _ =>
        rw [hu] at h
        cases h
    | ok s =>
        rw [hu] at h
        change (match RepoPath.parse bs with | some p => _ | none => _ : Except ProtocolError WirePath) = _ at h
        cases hp : RepoPath.parse bs with
        | none =>
            rw [hp] at h
            cases h
        | some q =>
            rw [hp] at h
            dsimp only at h
            split at h
            · cases h
              exact (RepoPath.parse_eq_ok.mp hp).2
            · cases h

/-- A length of four bytes within `max`, then so many bytes. -/
def readSized (max : ℕ) (e : ProtocolError) : FieldReader Str := sized endsInside (readCount max e)

def putSized (bytes : Str) : Str := putCount bytes.length ++ bytes

theorem reads_sized32 {max : ℕ} (hmax : max < 256 ^ 4) (e : ProtocolError) :
    Reads (readSized max e) putSized (fun bs => bs.length ≤ max) := reads_sized endsInside (reads_count hmax e)

/-- A comment body. -/
def readText32 (max : ℕ) : FieldReader String :=
  checked (readSized max (limit "comment exceeds limit")) (utf8 "comment is not UTF-8")

theorem reads_text32 {max : ℕ} (hmax : max < 256 ^ 4) :
    Reads (readText32 max) (fun s => putSized (text s)) (fun s => (text s).length ≤ max) :=
  (reads_sized32 hmax _).checked _ (fun _ hs => ⟨hs, utf8_eq_ok.mpr rfl⟩) (fun bs s hbs h => by
    rw [utf8_eq_ok] at h
    exact ⟨by rwa [← h], h.symm⟩)

/-- A flag, then text: absence is a zero flag with a zero length, and nothing else. -/
def readOptionalText (max : ℕ) : FieldReader (Option String) := do
  let present ← readFlag
  checked (readSized max (limit "text exceeds limit")) (fun bytes =>
    if present then
      if bytes.length = 0 then .error (malformed "present text must not be empty")
      else (utf8 "text is not UTF-8" bytes).map some
    else if bytes.length = 0 then .ok none
    else .error (malformed "absent text must be empty"))

def putOptionalText (s : Option String) : Str := Codec.putOptionalText (s.map text)

/-- An optional text that can be written: not empty, and within `max`. -/
def TextWithin (max : ℕ) (s : Option String) : Prop := ∀ t, s = some t → text t ≠ [] ∧ (text t).length ≤ max

theorem reads_optionalText {max : ℕ} (hmax : max < 256 ^ 4) :
    Reads (readOptionalText max) putOptionalText (TextWithin max) where
  read := by
    intro s hs rest
    cases s with
    | none =>
        show readOptionalText max ([flagCode false] ++ (putSized [] ++ rest)) = _
        unfold readOptionalText checked
        rw [reads_flag.bind_eq trivial, (reads_sized32 hmax _).bind_eq (Nat.zero_le _)]
        rfl
    | some t =>
        obtain ⟨hne, hlen⟩ := hs t rfl
        have hwrite : putOptionalText (some t) ++ rest = [flagCode true] ++ (putSized (text t) ++ rest) := by
          simp [putOptionalText, Codec.putOptionalText, flagCode, putSized, putCount]
        rw [hwrite]
        unfold readOptionalText checked
        rw [reads_flag.bind_eq trivial, (reads_sized32 hmax _).bind_eq hlen]
        dsimp only
        rw [if_pos rfl, if_neg (fun h => hne (List.length_eq_zero_iff.mp h)), utf8_eq_ok.mpr rfl]
        rfl
  sound := by
    intro s t rest hs
    obtain ⟨present, s', _, rfl, hk⟩ := reads_flag.bind_eq_ok hs
    obtain ⟨bytes, s'', hlen, rfl, hv⟩ := (reads_sized32 hmax _).bind_eq_ok hk
    change (((if present = true then _ else _ : Except ProtocolError (Option String))) >>=
      fun c => Except.ok (c, s'')) = _ at hv
    cases present with
    | false =>
        rw [if_neg (by decide)] at hv
        split at hv
        · rename_i hz
          cases hv
          rw [List.length_eq_zero_iff.mp hz]
          exact ⟨fun t ht => (by cases ht), rfl⟩
        · cases hv
    | true =>
        rw [if_pos rfl] at hv
        split at hv
        · cases hv
        · rename_i hz
          cases hu : utf8 "text is not UTF-8" bytes with
          | error e =>
              rw [hu] at hv
              cases hv
          | ok t =>
              rw [hu] at hv
              cases hv
              rw [utf8_eq_ok] at hu
              subst hu
              refine ⟨fun t' ht => ?_, ?_⟩
              · rw [← Option.some.inj ht]
                exact ⟨fun h => hz (List.length_eq_zero_iff.mpr h), hlen⟩
              · simp [putOptionalText, Codec.putOptionalText, flagCode, putSized, putCount]

/-! ### Attribution -/

def readAttribution : FieldReader (PublishAttribution ObjectId) := do
  let tag ← readU8
  if tag = 0 then return .human
  else if tag = 1 then do
    let context ← readOptionalId
    let allowMissingTrace ← readFlag
    return .agent context allowMissingTrace
  else Bytes.refuse (malformed "unknown attribution")

def putAttribution : PublishAttribution ObjectId → Str
  | .human => [0]
  | .agent context allowMissingTrace => 1 :: (putOptionalId context ++ [flagCode allowMissingTrace])

theorem reads_attribution : Reads readAttribution putAttribution (fun _ => True) where
  read := by
    intro a _ rest
    cases a with
    | human => rfl
    | agent context allow =>
        show readAttribution ([1] ++ ((putOptionalId context ++ [flagCode allow]) ++ rest)) = _
        unfold readAttribution
        rw [reads_u8.bind_eq trivial, if_neg (by decide), if_pos rfl, List.append_assoc,
          reads_optionalId.bind_eq trivial, reads_flag.bind_eq trivial]
        rfl
  sound := by
    intro s a rest hs
    obtain ⟨tag, s₁, _, rfl, hk⟩ := reads_u8.bind_eq_ok hs
    refine ⟨trivial, ?_⟩
    split at hk
    · rename_i ht
      cases hk
      rw [ht]
      rfl
    split at hk
    · rename_i ht
      obtain ⟨context, s₂, _, rfl, hk₂⟩ := reads_optionalId.bind_eq_ok hk
      obtain ⟨allow, s₃, _, rfl, hk₃⟩ := reads_flag.bind_eq_ok hk₂
      cases hk₃
      rw [ht]
      simp [putAttribution]
    · cases hk

/-! ### Cut text -/

/-- `str::is_char_boundary`. -/
def isCharBoundary (s : String) (i : ℕ) : Bool := String.Pos.Raw.isValid s ⟨i⟩

/-- The last boundary up to here. -/
def boundaryBefore (s : String) : ℕ → ℕ
  | 0 => 0
  | n + 1 => if isCharBoundary s (n + 1) then n + 1 else boundaryBefore s n

/-- The bytes of a text up to the last boundary within `max`. -/
def truncateUtf8 (s : String) (max : ℕ) : Str := (text s).take (boundaryBefore s (min (text s).length max))

/-- The longest prefix of whole characters within `max` bytes. -/
structure IsLongest (max : ℕ) (s t : String) : Prop where
  starts : t.toList <+: s.toList
  within : (text t).length ≤ max
  longest : ∀ u : String, u.toList <+: s.toList → (text u).length ≤ max → u.toList <+: t.toList

theorem text_append (s t : String) : text (s ++ t) = text s ++ text t := by
  unfold text
  rw [String.toByteArray_append]
  simp

theorem length_text_eq (s : String) : (text s).length = s.utf8ByteSize := rfl

/-- A boundary lies behind a prefix. -/
theorem isCharBoundary_iff {s : String} {i : ℕ} :
    isCharBoundary s i = true ↔ ∃ t u : String, s = t ++ u ∧ (text t).length = i := by
  unfold isCharBoundary
  rw [String.Pos.Raw.isValid_eq_true_iff, String.Pos.Raw.isValid_iff_exists_append]
  constructor
  · rintro ⟨t, u, hs, hp⟩
    exact ⟨t, u, hs, (congrArg String.Pos.Raw.byteIdx hp).symm⟩
  · rintro ⟨t, u, hs, hi⟩
    exact ⟨t, u, hs, by rw [← hi]; rfl⟩

/-- The loop stops at the last boundary. -/
theorem boundaryBefore_spec (s : String) (n : ℕ) : isCharBoundary s (boundaryBefore s n) = true ∧
    ∀ i ≤ n, isCharBoundary s i = true → i ≤ boundaryBefore s n := by
  induction n with
  | zero => exact ⟨isCharBoundary_iff.mpr ⟨"", s, (String.empty_append).symm, rfl⟩, fun i hi _ => hi⟩
  | succ n ih =>
      unfold boundaryBefore
      split
      · rename_i hb
        exact ⟨hb, fun i hi _ => hi⟩
      · rename_i hb
        refine ⟨ih.1, fun i hi hbi => ?_⟩
        have hne : i ≠ n + 1 := by
          rintro rfl
          exact hb hbi
        exact ih.2 i (by omega) hbi

theorem boundaryBefore_le (s : String) (n : ℕ) : boundaryBefore s n ≤ n := by
  induction n with
  | zero => exact le_refl 0
  | succ n ih =>
      unfold boundaryBefore
      split
      · exact le_refl _
      · omega

/-- What is kept is the longest prefix of whole characters. -/
theorem truncateUtf8_longest (s : String) (max : ℕ) :
    ∃ t : String, truncateUtf8 s max = text t ∧ IsLongest max s t := by
  obtain ⟨hboundary, hlast⟩ := boundaryBefore_spec s (min (text s).length max)
  have hle := boundaryBefore_le s (min (text s).length max)
  obtain ⟨t, u, hs, hlen⟩ := isCharBoundary_iff.mp hboundary
  have hstarts : t.toList <+: s.toList := by
    rw [hs, String.toList_append]
    exact List.prefix_append _ _
  refine ⟨t, ?_, hstarts, by omega, fun v hv hwithin => ?_⟩
  · unfold truncateUtf8
    rw [← hlen, hs, text_append, List.take_left]
  · obtain ⟨w, hw⟩ := hv
    have hvs : s = v ++ String.ofList w := String.toList_inj.mp (by
      rw [String.toList_append, String.toList_ofList]
      exact hw.symm)
    have hvlen : (text v).length ≤ (text s).length := by
      rw [hvs, text_append, List.length_append]
      exact Nat.le_add_right _ _
    have hvt := hlast _ (le_min hvlen hwithin) (isCharBoundary_iff.mpr ⟨v, _, hvs, rfl⟩)
    obtain h | h := List.prefix_or_prefix_of_prefix ⟨w, hw⟩ hstarts
    · exact h
    · obtain ⟨x, hx⟩ := h
      have hvx : v = t ++ String.ofList x := String.toList_inj.mp (by
        rw [String.toList_append, String.toList_ofList]
        exact hx.symm)
      have hxlen : (text (String.ofList x)).length = 0 := by
        rw [hvx, text_append, List.length_append] at hvt
        omega
      have hempty : String.ofList x = "" := by
        apply text_injective
        rw [List.length_eq_zero_iff.mp hxlen]
        rfl
      rw [hvx, hempty, String.append_empty]

/-- A text within the bound is kept as it is. -/
theorem truncateUtf8_of_le {s : String} {max : ℕ} (h : (text s).length ≤ max) : truncateUtf8 s max = text s := by
  obtain ⟨t, ht, hlongest⟩ := truncateUtf8_longest s max
  have hst := hlongest.longest s (List.prefix_refl _) h
  rw [ht, String.toList_inj.mp (hst.eq_of_length (le_antisymm hst.length_le hlongest.starts.length_le))]

end Javelin.Wire
