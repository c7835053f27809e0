import Javelin.WireCodec

/-! # The codec's inverse laws

`bound` adds up the sizes of the fields that `body` writes (`bound_eq_ok`).  So `encode` lets through exactly the
messages within the limits, what it lets through is read back, and what `decode` accepts is its only encoding
(`codec_inverse`). -/

namespace Javelin.Wire

open Bytes Protocol Collaboration

/-! ### Sizes -/

@[simp] theorem length_putU16 (n : UInt16) : (putU16 n).length = 2 := length_toBe 2 _
@[simp] theorem length_putU32 (n : UInt32) : (putU32 n).length = 4 := length_toBe 4 _
@[simp] theorem length_putU64 (n : UInt64) : (putU64 n).length = 8 := length_toBe 8 _
@[simp] theorem length_putVersion (n : WireVersion) : (putVersion n).length = 8 := length_toBe 8 _
@[simp] theorem length_putCount (n : ℕ) : (putCount n).length = 4 := length_toBe 4 _
@[simp] theorem length_putId (id : ObjectId) : (putId id).length = 32 := id.2
@[simp] theorem length_magic : MAGIC.length = 4 := by decide

@[simp] theorem length_putOptionalId (id : Option ObjectId) : (putOptionalId id).length = 33 := by
  simp [putOptionalId, putOptional]

@[simp] theorem length_putOptionalU32 (n : Option UInt32) : (putOptionalU32 n).length = 5 := by
  simp [putOptionalU32, putOptional]

@[simp] theorem length_putAttribution (a : PublishAttribution ObjectId) :
    (putAttribution a).length = Codec.attributionLen a := by
  cases a with
  | human => rfl
  | agent context allow => simp [putAttribution, Codec.attributionLen]

@[simp] theorem length_putShort (s : Str) : (Codec.putShort s).length = 1 + s.length := by
  rw [Codec.putShort, List.length_cons, Nat.add_comm]

@[simp] theorem length_putSized (bytes : Str) : (putSized bytes).length = 4 + bytes.length := by
  simp [putSized]

@[simp] theorem length_putOptionalText (s : Option String) :
    (putOptionalText s).length = 5 + ((s.map text).getD []).length := by
  simp [putOptionalText, Codec.putOptionalText]
  omega

theorem length_flatMap_putItem (items : List (Kind × ObjectId)) :
    (items.flatMap putItem).length = items.length * 33 := by
  induction items with
  | nil => rfl
  | cons item items ih =>
      rw [List.flatMap_cons, List.length_append, ih, List.length_cons, putItem, List.length_cons, length_putId]
      omega

@[simp] theorem length_putItems (items : List (Kind × ObjectId)) :
    (putItems items).length = 4 + items.length * 33 := by
  rw [putItems, List.length_append, length_putCount, length_flatMap_putItem]

theorem foldl_paths (paths : List WirePath) (len : ℕ) :
    paths.foldl (fun len path => len + (2 + path.1.asStr.length)) len = len + (paths.flatMap putPath).length := by
  induction paths generalizing len with
  | nil => rfl
  | cons path paths ih =>
      rw [List.foldl_cons, ih, List.flatMap_cons, List.length_append, putPath, List.length_append, length_toBe]
      omega

theorem short_eq_ok {s : Str} {n : ℕ} : Codec.short s = .ok n ↔ s.length ≤ 255 ∧ n = (Codec.putShort s).length := by
  unfold Codec.short
  rw [length_putShort]
  split
  · rename_i hlong
    constructor
    · intro h
      cases h
    · intro h
      omega
  · rename_i hshort
    constructor
    · intro h
      cases h
      exact ⟨by omega, rfl⟩
    · rintro ⟨_, rfl⟩
      rfl

theorem short_of_le {s : Str} (h : s.length ≤ 255) : Codec.short s = .ok (Codec.putShort s).length :=
  short_eq_ok.mpr ⟨h, rfl⟩

theorem short_operation (o : WireOperation) : Codec.short o.1.text = .ok (putOperation o).length :=
  short_of_le (le_trans o.2.2.1 (by decide))

theorem short_layer (l : WireLayer) : Codec.short l.1.text = .ok (putLayer l).length :=
  short_of_le (le_trans l.2.2.1 (by decide))

theorem short_request (r : RequestId) : Codec.short r.text = .ok (putRequest r).length :=
  short_of_le (le_trans r.valid.2.1 (by decide))

theorem counted_eq_ok {α : Type} {max : ℕ} {items : List α} {e : ProtocolError} :
    counted max items e = .ok () ↔ items.length ≤ max := by
  unfold counted
  split
  · rename_i h
    simp only [reduceCtorEq, false_iff]
    omega
  · rename_i h
    simp only [true_iff]
    omega

theorem objectsLen_eq_ok {objects : List WireObject} {n : ℕ} : objectsLen objects = .ok n ↔
    (∀ object ∈ objects, object.bytes.length ≤ kindLimit object.kind) ∧ n = (objects.flatMap putObject).length := by
  induction objects generalizing n with
  | nil =>
      constructor
      · intro h
        cases h
        exact ⟨fun _ hm => (by cases hm), rfl⟩
      · rintro ⟨_, rfl⟩
        rfl
  | cons object objects ih =>
      have hsize : (putObject object).length = OBJECT_OVERHEAD + object.bytes.length := by
        rw [putObject, List.length_cons, List.length_append, length_putId, length_putSized, OBJECT_OVERHEAD]
        omega
      unfold objectsLen
      rw [except_bind_eq_ok, List.forall_mem_cons, List.flatMap_cons, List.length_append, hsize]
      constructor
      · rintro ⟨_, hcount, h⟩
        obtain ⟨rest, hrest, h⟩ := except_bind_eq_ok.mp h
        cases h
        obtain ⟨hall, rfl⟩ := ih.mp hrest
        exact ⟨⟨counted_eq_ok.mp hcount, hall⟩, rfl⟩
      · rintro ⟨⟨hobject, hall⟩, rfl⟩
        refine ⟨(), counted_eq_ok.mpr hobject, except_bind_eq_ok.mpr ⟨_, ih.mpr ⟨hall, rfl⟩, rfl⟩⟩

/-- A message within the limits that `encode` checks. -/
def Sendable : Message → Prop
  | .want items | .missing items | .get items => items.length ≤ MAX_WANT
  | .objects objects => objects.length ≤ MAX_OBJECTS ∧
      ∀ object ∈ objects, object.bytes.length ≤ kindLimit object.kind
  | .layerOutcome (.refused code) => Short code
  | .publishOutcome (.conflict paths) => paths.length ≤ MAX_WANT
  | .publishOutcome (.refused code) => Short code
  | .changesetPart _ bytes => bytes.length ≤ MAX_CHANGESET_PART
  | .reviewOutcome (.refused code) => Short code
  | .comment _ _ _ body => (text body).length ≤ MAX_COMMENT
  | .checkReport report => ReadableReport report
  | .checkOutcome (.refused code) => Short code
  | .error code _ => Short code
  | _ => True

/-- The size of a body; an error reserves the bound of its detail. -/
def size : Message → ℕ
  | .error code _ => 4 + (text code).length + MAX_DETAIL
  | m => (body m).length

/-- A message that no limit is about. -/
theorem bound_total {m : Message} {n : ℕ} (hs : Sendable m) (h : bound m = .ok (size m)) :
    bound m = .ok n ↔ Sendable m ∧ n = size m := by
  rw [h]
  constructor
  · intro he
    cases he
    exact ⟨hs, rfl⟩
  · rintro ⟨_, rfl⟩
    rfl

/-- A message that its length check decides about. -/
theorem bound_checked {m : Message} {n : ℕ} {α : Type} {x : Except ProtocolError α} {a : α}
    {f : α → Except ProtocolError ℕ} (h : bound m = x >>= f) (hx : ∀ b, x = .ok b ↔ Sendable m ∧ b = a)
    (hf : f a = .ok (size m)) : bound m = .ok n ↔ Sendable m ∧ n = size m := by
  rw [h, except_bind_eq_ok]
  constructor
  · rintro ⟨b, hb, hn⟩
    obtain ⟨hs, rfl⟩ := (hx b).mp hb
    rw [hf] at hn
    cases hn
    exact ⟨hs, rfl⟩
  · rintro ⟨hs, rfl⟩
    exact ⟨a, (hx a).mpr ⟨hs, rfl⟩, hf⟩

theorem counted_iff {α : Type} {max : ℕ} {items : List α} {e : ProtocolError} (u : Unit) :
    counted max items e = .ok u ↔ items.length ≤ max ∧ u = () := by
  rw [counted_eq_ok, and_iff_left rfl]

/-- An optional text is not empty. -/
theorem ne_empty_iff {s : Option String} : s ≠ some "" ↔ ∀ t, s = some t → text t ≠ [] := by
  constructor
  · rintro h t rfl ht
    exact h (congrArg some (text_injective (ht.trans (by decide))))
  · rintro h rfl
    exact h "" rfl (by decide)

theorem textWithin_iff {max : ℕ} {s : Option String} :
    TextWithin max s ↔ s ≠ some "" ∧ ((s.map text).getD []).length ≤ max := by
  rw [ne_empty_iff]
  cases s with
  | none => simp [TextWithin]
  | some t => simp [TextWithin]

theorem reportLen_eq_ok {report : CheckReport} {n : ℕ} :
    reportLen report = .ok n ↔ ReadableReport report ∧ n = size (.checkReport report) := by
  have hsize : size (.checkReport report) = 1 + (putOperation report.operation).length +
      (putShort report.repository).length + 32 + 33 + (putShort report.name).length + 1 + 5 +
      ((report.detailsUrl.map text).getD []).length + 5 + ((report.summary.map text).getD []).length + 16 := by
    show (Codec.CHECK_REPORT :: putReport report).length = _
    simp [putReport]
    omega
  have hreport : ReadableReport report ↔ (¬ (report.detailsUrl = some "" ∨ report.summary = some "")) ∧
      ((report.detailsUrl.map text).getD []).length ≤ Codec.MAX_DETAILS_URL ∧
      ((report.summary.map text).getD []).length ≤ Codec.MAX_SUMMARY ∧ Short report.repository ∧
      Short report.name := by
    constructor
    · intro h
      obtain ⟨hurl, hurlLen⟩ := textWithin_iff.mp h.detailsUrl
      obtain ⟨hsummary, hsummaryLen⟩ := textWithin_iff.mp h.summary
      exact ⟨not_or.mpr ⟨hurl, hsummary⟩, hurlLen, hsummaryLen, h.repository, h.name⟩
    · rintro ⟨hne, hurl, hsummary, hrepository, hname⟩
      rw [not_or] at hne
      exact ⟨hrepository, hname, textWithin_iff.mpr ⟨hne.1, hurl⟩, textWithin_iff.mpr ⟨hne.2, hsummary⟩⟩
  rw [hreport, hsize]
  unfold reportLen
  constructor
  · intro h
    split at h
    · cases h
    rename_i hne
    obtain ⟨_, hurl, h⟩ := except_bind_eq_ok.mp h
    obtain ⟨_, hsummary, h⟩ := except_bind_eq_ok.mp h
    obtain ⟨_, hoperation, h⟩ := except_bind_eq_ok.mp h
    obtain ⟨_, hrepository, h⟩ := except_bind_eq_ok.mp h
    obtain ⟨_, hname, h⟩ := except_bind_eq_ok.mp h
    cases h
    rw [short_operation] at hoperation
    cases hoperation
    obtain ⟨hrepositoryLen, rfl⟩ := short_eq_ok.mp hrepository
    obtain ⟨hnameLen, rfl⟩ := short_eq_ok.mp hname
    exact ⟨⟨hne, counted_eq_ok.mp hurl, counted_eq_ok.mp hsummary, hrepositoryLen, hnameLen⟩, rfl⟩
  · rintro ⟨⟨hne, hurl, hsummary, hrepository, hname⟩, rfl⟩
    rw [if_neg hne, except_bind_of_ok (counted_eq_ok.mpr hurl), except_bind_of_ok (counted_eq_ok.mpr hsummary),
      except_bind_of_ok (short_operation _),
      except_bind_of_ok (show short report.repository = _ from short_of_le hrepository),
      except_bind_of_ok (show short report.name = _ from short_of_le hname)]
    rfl

theorem bound_eq_ok {m : Message} {n : ℕ} : bound m = .ok n ↔ Sendable m ∧ n = size m := by
  cases m with
  | hello _ _ | helloOk _ | permissions | applied _ _ _ | stored _ | resolve _ | resolved _ _ _ | changeset _ _ =>
      refine bound_total trivial ?_
      simp [bound, size, body, pure, Except.pure]
  | want _ | missing _ | get _ | changesetPart _ _ =>
      refine bound_checked (a := ()) rfl counted_iff ?_
      simp [size, body, pure, Except.pure]
      omega
  | objects objects =>
      rw [bound, except_bind_eq_ok]
      constructor
      · rintro ⟨_, hcount, h⟩
        obtain ⟨len, hlen, h⟩ := except_bind_eq_ok.mp h
        cases h
        obtain ⟨hall, rfl⟩ := objectsLen_eq_ok.mp hlen
        refine ⟨⟨counted_eq_ok.mp hcount, hall⟩, ?_⟩
        simp [size, body]
        omega
      · rintro ⟨⟨hcount, hall⟩, rfl⟩
        refine ⟨(), counted_eq_ok.mpr hcount, except_bind_eq_ok.mpr ⟨_, objectsLen_eq_ok.mpr ⟨hall, rfl⟩, ?_⟩⟩
        simp [size, body, pure, Except.pure]
        omega
  | publish _ _ _ | layerAppend _ _ _ _ | layerHead _ | layerState _ _ _ _ _ | layerStack _ _ _ _
  | publishLayer _ _ _ _ _ | publishRequest _ _ _ _ | openRequest _ _ _ _ _ | revise _ _ _ _ _ | approve _ _ _
  | readRequest _ | requestState _ _ _ =>
      refine bound_total trivial ?_
      simp [bound, size, body, short_operation, short_layer, short_request, pure, Except.pure, bind, Except.bind]
      omega
  | outcome outcome =>
      cases outcome with
      | accepted number tree operation =>
          refine bound_total trivial ?_
          simp [bound, size, body, short_operation, pure, Except.pure, bind, Except.bind]
          omega
      | stale actual =>
          refine bound_total trivial ?_
          simp [bound, size, body, pure, Except.pure]
  | layerOutcome outcome =>
      cases outcome with
      | accepted _ _ | stale _ =>
          refine bound_total trivial ?_
          simp [bound, size, body, pure, Except.pure]
      | refused code =>
          refine bound_checked rfl (fun _ => short_eq_ok) ?_
          simp [size, body, putShort, pure, Except.pure]
          omega
  | publishOutcome outcome =>
      cases outcome with
      | published _ _ _ | layerStale _ =>
          refine bound_total trivial ?_
          simp [bound, size, body, pure, Except.pure]
      | conflict paths =>
          refine bound_checked (a := ()) rfl counted_iff ?_
          rw [foldl_paths]
          simp [size, body, pure, Except.pure]
          omega
      | refused code =>
          refine bound_checked rfl (fun _ => short_eq_ok) ?_
          simp [size, body, putShort, pure, Except.pure]
          omega
  | reviewOutcome outcome =>
      cases outcome with
      | accepted revision =>
          refine bound_total trivial ?_
          simp [bound, size, body, pure, Except.pure]
      | refused code =>
          refine bound_checked rfl (fun _ => short_eq_ok) ?_
          simp [size, body, putShort, pure, Except.pure]
          omega
  | comment operation request revision body =>
      refine bound_checked (a := ()) rfl counted_iff ?_
      simp [size, Wire.body, short_operation, short_request, pure, Except.pure, bind, Except.bind]
      omega
  | checkReport report => exact reportLen_eq_ok
  | checkOutcome outcome =>
      cases outcome with
      | accepted id seq =>
          refine bound_total trivial ?_
          simp [bound, size, body, pure, Except.pure]
      | refused code =>
          refine bound_checked rfl (fun _ => short_eq_ok) ?_
          simp [size, body, putShort, pure, Except.pure]
          omega
  | error code detail =>
      refine bound_checked (a := ()) rfl counted_iff ?_
      simp [size, pure, Except.pure]

/-! ### Inverse laws -/

theorem length_body_le (m : Message) : (body m).length ≤ size m := by
  cases m with
  | error code detail =>
      have hcut : (truncateUtf8 detail MAX_DETAIL).length ≤ MAX_DETAIL := by
        obtain ⟨t, ht, hlongest⟩ := truncateUtf8_longest detail MAX_DETAIL
        rw [ht]
        exact hlongest.within
      show (ERROR :: (putShort code ++ toBe 2 (truncateUtf8 detail MAX_DETAIL).length ++
        truncateUtf8 detail MAX_DETAIL)).length ≤ 4 + (text code).length + MAX_DETAIL
      simp [putShort]
      omega
  | _ => exact le_refl _

theorem encodedLen_eq_ok {m : Message} {n : ℕ} :
    encodedLen m = .ok n ↔ Sendable m ∧ n = size m ∧ n ≤ MAX_FRAME := by
  unfold encodedLen
  rw [except_bind_eq_ok]
  constructor
  · rintro ⟨len, hlen, h⟩
    rw [bound_eq_ok] at hlen
    obtain ⟨hs, rfl⟩ := hlen
    split at h
    · cases h
    · cases h
      exact ⟨hs, rfl, by omega⟩
  · rintro ⟨hs, rfl, hle⟩
    refine ⟨size m, ?_, if_neg (by omega)⟩
    rw [bound_eq_ok]
    exact ⟨hs, rfl⟩

/-- What `encode` lets through. -/
theorem encode_eq_ok {m : Message} {b : Str} : encode m = .ok b ↔ Sendable m ∧ size m ≤ MAX_FRAME ∧ b = body m := by
  unfold encode
  rw [except_bind_eq_ok]
  constructor
  · rintro ⟨n, hn, h⟩
    rw [encodedLen_eq_ok] at hn
    obtain ⟨hs, rfl, hle⟩ := hn
    cases h
    exact ⟨hs, hle, rfl⟩
  · rintro ⟨hs, hle, rfl⟩
    refine ⟨size m, ?_, rfl⟩
    rw [encodedLen_eq_ok]
    exact ⟨hs, rfl, hle⟩

/-- What `decode` accepts. -/
theorem decode_eq_ok {m : Message} {b : Str} :
    decode b = .ok m ↔ Readable m ∧ b.length ≤ MAX_FRAME ∧ b = body m := by
  unfold decode
  split
  · rename_i hlong
    constructor
    · intro h
      cases h
    · rintro ⟨_, hle, _⟩
      omega
  · rename_i hlen
    rw [except_bind_eq_ok]
    constructor
    · rintro ⟨⟨m', rest⟩, hread, h⟩
      obtain ⟨hreadable, hb⟩ := readMessage_sound hread
      dsimp only at h
      split at h
      · cases h
      · rename_i hrest
        cases h
        rw [not_not.mp hrest, List.append_nil] at hb
        exact ⟨hreadable, by omega, hb⟩
    · rintro ⟨hreadable, _, rfl⟩
      have hread := readMessage_body hreadable []
      rw [List.append_nil] at hread
      exact ⟨(m, []), hread, rfl⟩

/-- A version range that is not empty, and tree payloads that are chunks. -/
def Proper : Message → Prop
  | .hello min max => min ≤ max
  | .objects objects => ∀ object ∈ objects, object.kind = .tree → ∃ c, Chunk.decodeBytes object.bytes = .ok c
  | _ => True

/-- The message that comes back: an error's detail is cut to its longest prefix of whole characters. -/
def Returns : Message → Message → Prop
  | .error code detail, m => ∃ cut, m = .error code cut ∧ IsLongest MAX_DETAIL detail cut
  | m, m' => m' = m

theorem unpack_of_decodeBytes {bytes : Str} {c : Chunk ObjectId} (h : Chunk.decodeBytes bytes = .ok c) :
    Chunk.unpack bytes = .ok c := Chunk.unpack_eq_ok.mpr (Chunk.decodeBytes_eq_ok.mp h)

/-- A proper message that can be sent has the body of a message that can be read. -/
theorem exists_returned {m : Message} (hs : Sendable m) (hp : Proper m) :
    ∃ m', Returns m m' ∧ Readable m' ∧ body m' = body m := by
  cases m with
  | error code detail =>
      obtain ⟨cut, hcut, hlongest⟩ := truncateUtf8_longest detail MAX_DETAIL
      refine ⟨.error code cut, ⟨cut, rfl, hlongest⟩, ⟨hs, hlongest.within⟩, ?_⟩
      show ERROR :: (putShort code ++ toBe 2 (truncateUtf8 cut MAX_DETAIL).length ++ truncateUtf8 cut MAX_DETAIL) =
        ERROR :: (putShort code ++ toBe 2 (truncateUtf8 detail MAX_DETAIL).length ++ truncateUtf8 detail MAX_DETAIL)
      rw [hcut, truncateUtf8_of_le hlongest.within]
  | hello min max => exact ⟨_, rfl, hp, rfl⟩
  | objects objects =>
      refine ⟨_, rfl, ⟨hs.1, fun object hm => ⟨hs.2 object hm, fun htree => ?_⟩⟩, rfl⟩
      obtain ⟨c, hc⟩ := hp object hm htree
      exact ⟨c, unpack_of_decodeBytes hc⟩
  | outcome outcome => exact ⟨_, rfl, by cases outcome <;> trivial, rfl⟩
  | layerOutcome outcome => exact ⟨_, rfl, by cases outcome <;> exact hs, rfl⟩
  | publishOutcome outcome => exact ⟨_, rfl, by cases outcome <;> exact hs, rfl⟩
  | reviewOutcome outcome => exact ⟨_, rfl, by cases outcome <;> exact hs, rfl⟩
  | checkOutcome outcome => exact ⟨_, rfl, by cases outcome <;> exact hs, rfl⟩
  | _ => exact ⟨_, rfl, hs, rfl⟩

/-- A message that is read can be sent again. -/
theorem Readable.sendable {m : Message} (h : Readable m) : Sendable m := by
  cases m with
  | hello min max => trivial
  | objects objects => exact ⟨h.1, fun object hm => (h.2 object hm).1⟩
  | error code detail => exact h.1
  | outcome outcome => cases outcome <;> trivial
  | layerOutcome outcome => cases outcome <;> exact h
  | publishOutcome outcome => cases outcome <;> exact h
  | reviewOutcome outcome => cases outcome <;> exact h
  | checkOutcome outcome => cases outcome <;> exact h
  | _ => exact h

theorem Readable.size_le {m : Message} (h : Readable m) (hle : (body m).length ≤ MAX_FRAME) :
    size m ≤ MAX_FRAME := by
  cases m with
  | error code detail =>
      have hcode : (text code).length ≤ 255 := h.1
      show 4 + (text code).length + MAX_DETAIL ≤ MAX_FRAME
      unfold MAX_DETAIL MAX_FRAME
      omega
  | _ => exact hle

/-- The two directions of the codec: what is encoded is decoded again, within the announced length and the frame
limit, and what is decoded is the one encoding of its message. -/
theorem codec_inverse :
    (∀ m b, encode m = .ok b → (∃ n, encodedLen m = .ok n ∧ b.length ≤ n ∧ n ≤ MAX_FRAME) ∧
      (Proper m → ∃ m', decode b = .ok m' ∧ Returns m m')) ∧
    (∀ b m, decode b = .ok m → encode m = .ok b) := by
  refine ⟨fun m b h => ?_, fun b m h => ?_⟩
  · obtain ⟨hs, hle, rfl⟩ := encode_eq_ok.mp h
    have hlen := length_body_le m
    refine ⟨⟨size m, encodedLen_eq_ok.mpr ⟨hs, rfl, hle⟩, hlen, hle⟩, fun hp => ?_⟩
    obtain ⟨m', hreturns, hreadable, hbody⟩ := exists_returned hs hp
    exact ⟨m', decode_eq_ok.mpr ⟨hreadable, le_trans hlen hle, hbody.symm⟩, hreturns⟩
  · obtain ⟨hreadable, hle, rfl⟩ := decode_eq_ok.mp h
    exact encode_eq_ok.mpr ⟨hreadable.sendable, hreadable.size_le hle, rfl⟩

/-- A version range is sent and read back. -/
theorem codec_inverse_hello : ∃ b m', encode (.hello 1 2) = .ok b ∧ decode b = .ok m' ∧
    Returns (.hello 1 2) m' := by
  have hencode : encode (.hello 1 2) = .ok (body (.hello 1 2)) := encode_eq_ok.mpr ⟨trivial, by decide, rfl⟩
  obtain ⟨m', hdecode, hreturns⟩ := (codec_inverse.1 _ _ hencode).2 (show (1 : UInt16) ≤ 2 by decide)
  exact ⟨_, m', hencode, hdecode, hreturns⟩

end Javelin.Wire
