import Javelin.WireMessages

/-! # The wire codec

`encode` and `decode` are inverse (`codec_inverse`).  Each tag's reader reads what `body` writes behind the tag
(`covered`), and `body` and the fields that `bound` adds up have the same length (`bound_eq`).  A message that
`encode` lets through is read back unless it is an empty version range or an object that is no tree chunk; an
error's detail comes back cut. -/

namespace Bytes

section fields
variable {ε α β γ δ ζ η : Type} {ra : Reader ε α} {rb : Reader ε β} {rc : Reader ε γ} {rd : Reader ε δ}
  {re : Reader ε ζ} {wa : α → List UInt8} {wb : β → List UInt8} {wc : γ → List UInt8} {wd : δ → List UInt8}
  {we : ζ → List UInt8} {w : η → List UInt8} {Pa : α → Prop}

/-- A value of a field that not every value of it can be written to. -/
theorem Reads.field (ha : Reads ra wa Pa) (C : α → η) (hw : ∀ a, w (C a) = wa a) :
    Reads (do let a ← ra; return C a) w (fun m => ∃ a, Pa a ∧ m = C a) where
  read := by
    rintro _ ⟨a, hpa, rfl⟩ rest
    rw [hw, ha.bind_eq hpa]
    rfl
  sound := by
    intro s m rest h
    obtain ⟨a, s₁, hpa, rfl, h₁⟩ := ha.bind_eq_ok h
    cases h₁
    exact ⟨⟨a, hpa, rfl⟩, by rw [hw]⟩

/-- A field that every value can be written to. -/
abbrev Total (r : Reader ε α) (w : α → List UInt8) : Prop := Reads r w (fun _ => True)

/-- A value of one field. -/
theorem Reads.fields₁ (ha : Total ra wa) (C : α → η) (hw : ∀ a, w (C a) = wa a) :
    Reads (do let a ← ra; return C a) w (fun m => ∃ a, m = C a) where
  read := by
    rintro _ ⟨a, rfl⟩ rest
    rw [hw, ha.bind_eq trivial]
    rfl
  sound := by
    intro s m rest h
    obtain ⟨a, s₁, _, rfl, h₁⟩ := ha.bind_eq_ok h
    cases h₁
    exact ⟨⟨a, rfl⟩, by rw [hw]⟩

/-- A value of two fields. -/
theorem Reads.fields₂ (ha : Total ra wa) (hb : Total rb wb) (C : α → β → η)
    (hw : ∀ a b, w (C a b) = wa a ++ wb b) :
    Reads (do let a ← ra; let b ← rb; return C a b) w (fun m => ∃ a b, m = C a b) where
  read := by
    rintro _ ⟨a, b, rfl⟩ rest
    rw [hw, List.append_assoc, ha.bind_eq trivial, hb.bind_eq trivial]
    rfl
  sound := by
    intro s m rest h
    obtain ⟨a, s₁, _, rfl, h₁⟩ := ha.bind_eq_ok h
    obtain ⟨b, s₂, _, rfl, h₂⟩ := hb.bind_eq_ok h₁
    cases h₂
    exact ⟨⟨a, b, rfl⟩, by rw [hw, List.append_assoc]⟩

/-- A value of three fields. -/
theorem Reads.fields₃ (ha : Total ra wa) (hb : Total rb wb) (hc : Total rc wc) (C : α → β → γ → η)
    (hw : ∀ a b c, w (C a b c) = wa a ++ wb b ++ wc c) :
    Reads (do let a ← ra; let b ← rb; let c ← rc; return C a b c) w (fun m => ∃ a b c, m = C a b c) where
  read := by
    rintro _ ⟨a, b, c, rfl⟩ rest
    rw [hw, List.append_assoc, List.append_assoc, ha.bind_eq trivial, hb.bind_eq trivial, hc.bind_eq trivial]
    rfl
  sound := by
    intro s m rest h
    obtain ⟨a, s₁, _, rfl, h₁⟩ := ha.bind_eq_ok h
    obtain ⟨b, s₂, _, rfl, h₂⟩ := hb.bind_eq_ok h₁
    obtain ⟨c, s₃, _, rfl, h₃⟩ := hc.bind_eq_ok h₂
    cases h₃
    exact ⟨⟨a, b, c, rfl⟩, by rw [hw, List.append_assoc, List.append_assoc]⟩

/-- A value of four fields. -/
theorem Reads.fields₄ (ha : Total ra wa) (hb : Total rb wb) (hc : Total rc wc)
    (hd : Total rd wd) (C : α → β → γ → δ → η) (hw : ∀ a b c d, w (C a b c d) = wa a ++ wb b ++ wc c ++ wd d) :
    Reads (do let a ← ra; let b ← rb; let c ← rc; let d ← rd; return C a b c d) w
      (fun m => ∃ a b c d, m = C a b c d) where
  read := by
    rintro _ ⟨a, b, c, d, rfl⟩ rest
    rw [hw, List.append_assoc, List.append_assoc, List.append_assoc, ha.bind_eq trivial, hb.bind_eq trivial,
      hc.bind_eq trivial, hd.bind_eq trivial]
    rfl
  sound := by
    intro s m rest h
    obtain ⟨a, s₁, _, rfl, h₁⟩ := ha.bind_eq_ok h
    obtain ⟨b, s₂, _, rfl, h₂⟩ := hb.bind_eq_ok h₁
    obtain ⟨c, s₃, _, rfl, h₃⟩ := hc.bind_eq_ok h₂
    obtain ⟨d, s₄, _, rfl, h₄⟩ := hd.bind_eq_ok h₃
    cases h₄
    exact ⟨⟨a, b, c, d, rfl⟩, by rw [hw, List.append_assoc, List.append_assoc, List.append_assoc]⟩

/-- A value of five fields. -/
theorem Reads.fields₅ (ha : Total ra wa) (hb : Total rb wb) (hc : Total rc wc)
    (hd : Total rd wd) (he : Total re we) (C : α → β → γ → δ → ζ → η)
    (hw : ∀ a b c d e, w (C a b c d e) = wa a ++ wb b ++ wc c ++ wd d ++ we e) :
    Reads (do let a ← ra; let b ← rb; let c ← rc; let d ← rd; let e ← re; return C a b c d e) w
      (fun m => ∃ a b c d e, m = C a b c d e) where
  read := by
    rintro _ ⟨a, b, c, d, e, rfl⟩ rest
    rw [hw, List.append_assoc, List.append_assoc, List.append_assoc, List.append_assoc, ha.bind_eq trivial,
      hb.bind_eq trivial, hc.bind_eq trivial, hd.bind_eq trivial, he.bind_eq trivial]
    rfl
  sound := by
    intro s m rest h
    obtain ⟨a, s₁, _, rfl, h₁⟩ := ha.bind_eq_ok h
    obtain ⟨b, s₂, _, rfl, h₂⟩ := hb.bind_eq_ok h₁
    obtain ⟨c, s₃, _, rfl, h₃⟩ := hc.bind_eq_ok h₂
    obtain ⟨d, s₄, _, rfl, h₄⟩ := hd.bind_eq_ok h₃
    obtain ⟨e, s₅, _, rfl, h₅⟩ := he.bind_eq_ok h₄
    cases h₅
    exact ⟨⟨a, b, c, d, e, rfl⟩,
      by rw [hw, List.append_assoc, List.append_assoc, List.append_assoc, List.append_assoc]⟩

/-- A count, then so many values. -/
theorem Reads.list {len : Reader ε ℕ} {wl : ℕ → List UInt8} {Pl : ℕ → Prop} (hl : Reads len wl Pl)
    (ha : Reads ra wa Pa) (C : List α → η) (hw : ∀ as, w (C as) = wl as.length ++ as.flatMap wa) :
    Reads (do let n ← len; let as ← readMany ra n; return C as) w
      (fun m => ∃ as : List α, Pl as.length ∧ (∀ a ∈ as, Pa a) ∧ m = C as) where
  read := by
    rintro _ ⟨as, hpl, hpa, rfl⟩ rest
    rw [hw, List.append_assoc, hl.bind_eq hpl, (reads_many ha as.length).bind_eq ⟨rfl, hpa⟩]
    rfl
  sound := by
    intro s m rest h
    obtain ⟨n, s₁, hpl, rfl, h₁⟩ := hl.bind_eq_ok h
    obtain ⟨as, s₂, ⟨hn, hpa⟩, rfl, h₂⟩ := (reads_many ha n).bind_eq_ok h₁
    cases h₂
    rw [← hn] at hpl
    exact ⟨⟨as, hpl, hpa, rfl⟩, by rw [hw, List.append_assoc, hn]⟩

end fields

/-! ### Tags -/

section tags
variable {ε α : Type} {w : α → List UInt8} {P Q : α → Prop} {e : ε}

/-- One alternative behind a byte, before the others. -/
theorem reads_tagged {t : UInt8} {r : Reader ε α} {k : UInt8 → Reader ε α}
    (hr : Reads r (fun a => (w a).tail) P) (hP : ∀ a, P a → w a = t :: (w a).tail)
    (hk : Reads (readByte e >>= k) w Q) (hQ : ∀ a, Q a → (w a).head? ≠ some t) :
    Reads (readByte e >>= fun tag => if tag = t then r else k tag) w (fun a => P a ∨ Q a) where
  read := by
    intro a ha rest
    obtain ha | ha := ha
    · rw [hP a ha]
      show (if t = t then r else k t) ((w a).tail ++ rest) = _
      rw [if_pos rfl]
      exact hr.read a ha rest
    · have hread := hk.read a ha rest
      cases hw : w a with
      | nil =>
          have hempty := hk.read a ha []
          rw [hw] at hempty
          cases hempty
      | cons b bs =>
          have hne : b ≠ t := by
            rintro rfl
            exact hQ a ha (by rw [hw]; rfl)
          rw [hw] at hread
          show (if b = t then r else k b) (bs ++ rest) = _
          rw [if_neg hne]
          exact hread
  sound := by
    intro s a rest h
    cases s with
    | nil => cases h
    | cons b bs =>
        change (if b = t then r else k b) bs = .ok (a, rest) at h
        split at h
        · rename_i hb
          obtain ⟨ha, hs⟩ := hr.sound _ _ _ h
          refine ⟨.inl ha, ?_⟩
          rw [hP a ha, hb, hs]
          rfl
        · obtain ⟨ha, hs⟩ := hk.sound (b :: bs) a rest h
          exact ⟨.inr ha, hs⟩

/-- No alternative is left. -/
theorem reads_refused (e' : ε) : Reads (readByte e >>= fun _ => (refuse e' : Reader ε α)) w (fun _ => False) where
  read := fun _ h => h.elim
  sound := by
    intro s a rest h
    cases s with
    | nil => cases h
    | cons b bs => cases h

end tags

end Bytes

namespace Javelin.Wire

open Bytes Protocol Collaboration

/-! ### Each tag -/

/-- What is written behind the tag. -/
def fields (m : Message) : Str := (body m).tail

/-- A version range that is not empty. -/
theorem reads_hello : Reads readHello fields (fun m => ∃ min max : UInt16, min ≤ max ∧ m = .hello min max) where
  read := by
    rintro _ ⟨min, max, hle, rfl⟩ rest
    have hwritten : fields (.hello min max) ++ rest = id MAGIC ++ (putU16 min ++ (putU16 max ++ rest)) := by
      show (MAGIC ++ putU16 min ++ putU16 max) ++ rest = _
      rw [List.append_assoc, List.append_assoc]
      rfl
    unfold readHello
    rw [hwritten, (reads_take endsInside 4).bind_eq (by decide), if_neg (by simp), reads_u16.bind_eq trivial,
      reads_u16.bind_eq trivial, if_neg (UInt16.not_lt.mpr hle)]
    rfl
  sound := by
    intro s m rest h
    obtain ⟨magic, s₁, _, rfl, h₁⟩ := (reads_take endsInside 4).bind_eq_ok h
    split at h₁
    · cases h₁
    rename_i hmagic
    obtain ⟨min, s₂, _, rfl, h₂⟩ := reads_u16.bind_eq_ok h₁
    obtain ⟨max, s₃, _, rfl, h₃⟩ := reads_u16.bind_eq_ok h₂
    split at h₃
    · cases h₃
    rename_i hle
    cases h₃
    refine ⟨⟨min, max, UInt16.not_lt.mp hle, rfl⟩, ?_⟩
    rw [not_not.mp hmagic]
    show _ = (MAGIC ++ putU16 min ++ putU16 max) ++ rest
    rw [List.append_assoc, List.append_assoc]
    rfl

theorem reads_permissions :
    Reads (return .permissions : FieldReader Message) fields (fun m => m = .permissions) where
  read := by
    rintro _ rfl rest
    rfl
  sound := by
    intro s m rest h
    cases h
    exact ⟨rfl, rfl⟩

theorem reads_helloOk : Reads readHelloOk fields (fun m => ∃ a, m = .helloOk a) :=
  reads_u16.fields₁ Message.helloOk (fun _ => rfl)

theorem reads_applied : Reads readApplied fields (fun m => ∃ a b c, m = .applied a b c) :=
  reads_u64.fields₃ reads_role reads_visibility Message.applied (fun _ _ _ => rfl)

theorem reads_stored : Reads readStored fields (fun m => ∃ a, m = .stored a) :=
  reads_u32.fields₁ Message.stored (fun _ => rfl)

theorem reads_publish : Reads readPublish fields (fun m => ∃ a b c, m = .publish a b c) :=
  reads_operation.fields₃ reads_version reads_id Message.publish (fun _ _ _ => rfl)

theorem reads_layerAppend : Reads readLayerAppend fields (fun m => ∃ a b c d, m = .layerAppend a b c d) :=
  reads_operation.fields₄ reads_layer reads_optionalId reads_id Message.layerAppend (fun _ _ _ _ => rfl)

theorem reads_layerHead : Reads readLayerHead fields (fun m => ∃ a, m = .layerHead a) :=
  reads_layer.fields₁ Message.layerHead (fun _ => rfl)

theorem reads_layerState : Reads readLayerState fields (fun m => ∃ a b c d e, m = .layerState a b c d e) :=
  reads_layer.fields₅ reads_version reads_u64 reads_id reads_layerStatus Message.layerState (fun _ _ _ _ _ => rfl)

theorem reads_layerStack : Reads readLayerStack fields (fun m => ∃ a b c d, m = .layerStack a b c d) :=
  reads_operation.fields₄ reads_layer reads_id reads_id Message.layerStack (fun _ _ _ _ => rfl)

theorem reads_publishLayer : Reads readPublishLayer fields (fun m => ∃ a b c d e, m = .publishLayer a b c d e) :=
  reads_operation.fields₅ reads_layer reads_id reads_version reads_attribution Message.publishLayer
    (fun _ _ _ _ _ => rfl)

theorem reads_publishRequest : Reads readPublishRequest fields (fun m => ∃ a b c d, m = .publishRequest a b c d) :=
  reads_operation.fields₄ reads_request reads_u32 reads_version Message.publishRequest (fun _ _ _ _ => rfl)

theorem reads_resolved : Reads readResolved fields (fun m => ∃ a b c, m = .resolved a b c) :=
  reads_version.fields₃ reads_id reads_id Message.resolved (fun _ _ _ => rfl)

theorem reads_changeset : Reads readChangeset fields (fun m => ∃ a b, m = .changeset a b) :=
  reads_version.fields₂ reads_u64 Message.changeset (fun _ _ => rfl)

theorem reads_openRequest : Reads readOpenRequest fields (fun m => ∃ a b c d e, m = .openRequest a b c d e) :=
  reads_operation.fields₅ reads_request reads_layer reads_id reads_version Message.openRequest
    (fun _ _ _ _ _ => rfl)

theorem reads_revise : Reads readRevise fields (fun m => ∃ a b c d e, m = .revise a b c d e) :=
  reads_operation.fields₅ reads_request reads_u32 reads_id reads_version Message.revise (fun _ _ _ _ _ => rfl)

theorem reads_approve : Reads readApprove fields (fun m => ∃ a b c, m = .approve a b c) :=
  reads_operation.fields₃ reads_request reads_u32 Message.approve (fun _ _ _ => rfl)

theorem reads_readRequest : Reads readReadRequest fields (fun m => ∃ a, m = .readRequest a) :=
  reads_request.fields₁ Message.readRequest (fun _ => rfl)

theorem reads_requestState : Reads readRequestState fields (fun m => ∃ a b c, m = .requestState a b c) :=
  reads_request.fields₃ reads_requestStatus reads_u32 Message.requestState (fun _ _ _ => rfl)

/-! ### Outcomes -/

/-- What is written behind the tag of an outcome. -/
def choice (m : Message) : Str := (fields m).tail

theorem reads_outcome : Reads readOutcome fields (fun m => (∃ a b c, m = .outcome (.accepted a b c)) ∨
    (∃ a, m = .outcome (.stale a)) ∨ False) := by
  refine reads_tagged (w := fields)
    (reads_version.fields₃ reads_id reads_operation (fun a b c => Message.outcome (.accepted a b c))
      (fun _ _ _ => (rfl : choice (.outcome (.accepted _ _ _)) = _))) ?_
    (reads_tagged (reads_version.fields₁ (fun a => Message.outcome (.stale a)) (fun _ => rfl)) ?_
      (reads_refused _) ?_) ?_
  · rintro _ ⟨_, _, _, rfl⟩
    rfl
  · rintro _ ⟨_, rfl⟩
    rfl
  · rintro _ h
    exact h.elim
  · rintro _ (⟨_, rfl⟩ | h)
    · exact fun h => by cases h
    · exact h.elim

/-- A text that fits a length of one byte. -/
def Short (s : String) : Prop := (text s).length ≤ 255

theorem reads_layerOutcome : Reads readLayerOutcome fields (fun m =>
    (∃ a b, m = .layerOutcome (.accepted a b)) ∨ (∃ a, m = .layerOutcome (.stale a)) ∨
      (∃ a, Short a ∧ m = .layerOutcome (.refused a)) ∨ False) := by
  refine reads_tagged (w := fields)
    (reads_u64.fields₂ reads_id (fun a b => Message.layerOutcome (.accepted a b))
      (fun _ _ => (rfl : choice (.layerOutcome (.accepted _ _)) = _))) ?_
    (reads_tagged (reads_id.fields₁ (fun a => Message.layerOutcome (.stale a)) (fun _ => rfl)) ?_
      (reads_tagged (reads_shortStr.field (fun a => Message.layerOutcome (.refused a)) (fun _ => rfl)) ?_
        (reads_refused _) ?_) ?_) ?_
  · rintro _ ⟨_, _, rfl⟩
    rfl
  · rintro _ ⟨_, rfl⟩
    rfl
  · rintro _ ⟨_, _, rfl⟩
    rfl
  · rintro _ h
    exact h.elim
  · rintro _ (⟨_, _, rfl⟩ | h)
    · exact fun h => by cases h
    · exact h.elim
  · rintro _ (⟨_, rfl⟩ | ⟨_, _, rfl⟩ | h)
    · exact fun h => by cases h
    · exact fun h => by cases h
    · exact h.elim

theorem reads_publishOutcome : Reads readPublishOutcome fields (fun m =>
    (∃ a b c, m = .publishOutcome (.published a b c)) ∨
      (∃ paths : List WirePath, paths.length ≤ MAX_WANT ∧ (∀ p ∈ paths, True) ∧
        m = .publishOutcome (.conflict paths)) ∨
      (∃ a, m = .publishOutcome (.layerStale a)) ∨ (∃ a, Short a ∧ m = .publishOutcome (.refused a)) ∨ False) := by
  refine reads_tagged (w := fields)
    (reads_version.fields₃ reads_id reads_id (fun a b c => Message.publishOutcome (.published a b c))
      (fun _ _ _ => (rfl : choice (.publishOutcome (.published _ _ _)) = _))) ?_
    (reads_tagged ((reads_count (by decide) _).list reads_path (fun a => Message.publishOutcome (.conflict a))
        (fun _ => rfl)) ?_
      (reads_tagged (reads_id.fields₁ (fun a => Message.publishOutcome (.layerStale a)) (fun _ => rfl)) ?_
        (reads_tagged (reads_shortStr.field (fun a => Message.publishOutcome (.refused a)) (fun _ => rfl)) ?_
          (reads_refused _) ?_) ?_) ?_) ?_
  · rintro _ ⟨_, _, _, rfl⟩
    rfl
  · rintro _ ⟨_, _, _, rfl⟩
    rfl
  · rintro _ ⟨_, rfl⟩
    rfl
  · rintro _ ⟨_, _, rfl⟩
    rfl
  · rintro _ h
    exact h.elim
  · rintro _ (⟨_, _, rfl⟩ | h)
    · exact fun h => by cases h
    · exact h.elim
  · rintro _ (⟨_, rfl⟩ | ⟨_, _, rfl⟩ | h)
    · exact fun h => by cases h
    · exact fun h => by cases h
    · exact h.elim
  · rintro _ (⟨_, _, _, rfl⟩ | ⟨_, rfl⟩ | ⟨_, _, rfl⟩ | h)
    · exact fun h => by cases h
    · exact fun h => by cases h
    · exact fun h => by cases h
    · exact h.elim

theorem reads_reviewOutcome : Reads readReviewOutcome fields (fun m =>
    (∃ a, m = .reviewOutcome (.accepted a)) ∨ (∃ a, Short a ∧ m = .reviewOutcome (.refused a)) ∨ False) := by
  refine reads_tagged (w := fields)
    (reads_u32.fields₁ (fun a => Message.reviewOutcome (.accepted a))
      (fun _ => (rfl : choice (.reviewOutcome (.accepted _)) = _))) ?_
    (reads_tagged (reads_shortStr.field (fun a => Message.reviewOutcome (.refused a)) (fun _ => rfl)) ?_
      (reads_refused _) ?_) ?_
  · rintro _ ⟨_, rfl⟩
    rfl
  · rintro _ ⟨_, _, rfl⟩
    rfl
  · rintro _ h
    exact h.elim
  · rintro _ (⟨_, _, rfl⟩ | h)
    · exact fun h => by cases h
    · exact h.elim

theorem reads_checkOutcome : Reads readCheckOutcome fields (fun m =>
    (∃ a b, m = .checkOutcome (.accepted a b)) ∨ (∃ a, Short a ∧ m = .checkOutcome (.refused a)) ∨ False) := by
  refine reads_tagged (w := fields)
    (reads_id.fields₂ reads_u64 (fun a b => Message.checkOutcome (.accepted a b))
      (fun _ _ => (rfl : choice (.checkOutcome (.accepted _ _)) = _))) ?_
    (reads_tagged (reads_shortStr.field (fun a => Message.checkOutcome (.refused a)) (fun _ => rfl)) ?_
      (reads_refused _) ?_) ?_
  · rintro _ ⟨_, _, rfl⟩
    rfl
  · rintro _ ⟨_, _, rfl⟩
    rfl
  · rintro _ h
    exact h.elim
  · rintro _ (⟨_, _, rfl⟩ | h)
    · exact fun h => by cases h
    · exact h.elim

/-! ### Lists -/

theorem reads_item : Reads readItem putItem (fun item => ∃ a b, item = (a, b)) :=
  reads_kind.fields₂ reads_id Prod.mk (fun _ _ => rfl)

/-- `want`, `missing` and `get`. -/
theorem reads_items (message : List (Kind × ObjectId) → Message)
    (hmessage : ∀ items, fields (message items) = putItems items) :
    Reads (readItems message) fields (fun m => ∃ items : List (Kind × ObjectId), items.length ≤ MAX_WANT ∧
      (∀ item ∈ items, ∃ a b, item = (a, b)) ∧ m = message items) :=
  (reads_count (by decide) _).list reads_item message hmessage

/-- An object that can be read: within its kind's limit, and a chunk if it is a tree. -/
def ReadableObject (object : WireObject) : Prop :=
  object.bytes.length ≤ kindLimit object.kind ∧
    (object.kind = .tree → ∃ c, Chunk.unpack object.bytes = .ok c)

theorem checkChunk_eq_ok {kind : Kind} {bytes bytes' : Str} : checkChunk kind bytes = .ok bytes' ↔
    bytes' = bytes ∧ (kind = .tree → ∃ c, Chunk.unpack bytes = .ok c) := by
  unfold checkChunk
  split
  · rename_i hk
    cases Chunk.unpack bytes with
    | error why => simp [hk]
    | ok c =>
        constructor
        · intro h
          cases h
          exact ⟨rfl, fun _ => ⟨c, rfl⟩⟩
        · rintro ⟨rfl, _⟩
          rfl
  · rename_i hk
    constructor
    · intro h
      cases h
      exact ⟨rfl, fun ht => absurd ht hk⟩
    · rintro ⟨rfl, _⟩
      rfl

theorem kindLimit_lt (kind : Kind) : kindLimit kind < 256 ^ 4 := by cases kind <;> decide

theorem reads_payload (kind : Kind) :
    Reads (checked (readSized (kindLimit kind) (limit "object exceeds size limit")) (checkChunk kind)) putSized
      (fun bytes => bytes.length ≤ kindLimit kind ∧ (kind = .tree → ∃ c, Chunk.unpack bytes = .ok c)) :=
  (reads_sized32 (kindLimit_lt kind) _).checked (fun bytes => bytes)
    (fun bytes h => ⟨h.1, checkChunk_eq_ok.mpr ⟨rfl, h.2⟩⟩) (fun bytes bytes' hlen h => by
      obtain ⟨rfl, hchunk⟩ := checkChunk_eq_ok.mp h
      exact ⟨⟨hlen, hchunk⟩, rfl⟩)

theorem reads_object : Reads readObject putObject ReadableObject where
  read := by
    rintro ⟨kind, id, bytes⟩ h rest
    show readObject ([kindCode kind] ++ (putId id ++ putSized bytes) ++ rest) = _
    unfold readObject
    rw [List.append_assoc, List.append_assoc, reads_kind.bind_eq trivial, reads_id.bind_eq trivial,
      (reads_payload kind).bind_eq h]
    rfl
  sound := by
    intro s object rest h
    obtain ⟨kind, s₁, _, rfl, h₁⟩ := reads_kind.bind_eq_ok h
    obtain ⟨id, s₂, _, rfl, h₂⟩ := reads_id.bind_eq_ok h₁
    obtain ⟨bytes, s₃, hbytes, rfl, h₃⟩ := (reads_payload kind).bind_eq_ok h₂
    cases h₃
    refine ⟨hbytes, ?_⟩
    show _ = [kindCode kind] ++ (putId id ++ putSized bytes) ++ rest
    rw [List.append_assoc, List.append_assoc]

theorem reads_objects : Reads readObjects fields (fun m => ∃ objects : List WireObject,
    objects.length ≤ MAX_OBJECTS ∧ (∀ object ∈ objects, ReadableObject object) ∧ m = .objects objects) :=
  (reads_count (by decide) _).list reads_object Message.objects (fun _ => rfl)

/-! ### Texts and optional values -/

theorem reads_resolve : Reads readResolve fields (fun m => ∃ version, m = .resolve version) where
  read := by
    rintro _ ⟨version, rfl⟩ rest
    show readResolve (([flagCode version.isSome] ++ putVersion (version.getD ⟨0, Nat.zero_le _⟩)) ++ rest) = _
    unfold readResolve
    rw [List.append_assoc, reads_u8.bind_eq trivial, reads_version.bind_eq trivial]
    cases version with
    | none => rfl
    | some version => rfl
  sound := by
    intro s m rest h
    obtain ⟨flag, s₁, _, rfl, h₁⟩ := reads_u8.bind_eq_ok h
    obtain ⟨version, s₂, _, rfl, h₂⟩ := reads_version.bind_eq_ok h₁
    split at h₂
    · rename_i hnone
      cases h₂
      refine ⟨⟨none, rfl⟩, ?_⟩
      rw [hnone.1, show version = ⟨0, Nat.zero_le _⟩ from Subtype.ext hnone.2]
      rfl
    split at h₂
    · rename_i hflag
      cases h₂
      refine ⟨⟨some version, rfl⟩, ?_⟩
      rw [hflag]
      rfl
    · cases h₂

theorem reads_changesetPart : Reads readChangesetPart fields (fun m => ∃ (total : UInt64) (bytes : Str),
    bytes.length ≤ MAX_CHANGESET_PART ∧ m = .changesetPart total bytes) where
  read := by
    rintro _ ⟨total, bytes, hlen, rfl⟩ rest
    show readChangesetPart ((putU64 total ++ putSized bytes) ++ rest) = _
    unfold readChangesetPart
    rw [List.append_assoc, reads_u64.bind_eq trivial, (reads_sized32 (by decide) _).bind_eq hlen]
    rfl
  sound := by
    intro s m rest h
    obtain ⟨total, s₁, _, rfl, h₁⟩ := reads_u64.bind_eq_ok h
    obtain ⟨bytes, s₂, hlen, rfl, h₂⟩ := (reads_sized32 (by decide) _).bind_eq_ok h₁
    cases h₂
    refine ⟨⟨total, bytes, hlen, rfl⟩, ?_⟩
    show _ = (putU64 total ++ putSized bytes) ++ rest
    rw [List.append_assoc]

theorem reads_comment : Reads readComment fields (fun m => ∃ (operation : WireOperation) (request : RequestId)
    (revision : Option UInt32) (body : String), (text body).length ≤ MAX_COMMENT ∧
      m = .comment operation request revision body) where
  read := by
    rintro _ ⟨operation, request, revision, body, hlen, rfl⟩ rest
    show readComment ((putOperation operation ++ putRequest request ++ putOptionalU32 revision ++
      putSized (text body)) ++ rest) = _
    unfold readComment
    rw [List.append_assoc, List.append_assoc, List.append_assoc, reads_operation.bind_eq trivial,
      reads_request.bind_eq trivial, reads_optionalU32.bind_eq trivial, (reads_text32 (by decide)).bind_eq hlen]
    rfl
  sound := by
    intro s m rest h
    obtain ⟨operation, s₁, _, rfl, h₁⟩ := reads_operation.bind_eq_ok h
    obtain ⟨request, s₂, _, rfl, h₂⟩ := reads_request.bind_eq_ok h₁
    obtain ⟨revision, s₃, _, rfl, h₃⟩ := reads_optionalU32.bind_eq_ok h₂
    obtain ⟨body, s₄, hlen, rfl, h₄⟩ := (reads_text32 (by decide)).bind_eq_ok h₃
    cases h₄
    refine ⟨⟨operation, request, revision, body, hlen, rfl⟩, ?_⟩
    show _ = (putOperation operation ++ putRequest request ++ putOptionalU32 revision ++ putSized (text body)) ++
      rest
    rw [List.append_assoc, List.append_assoc, List.append_assoc]

/-- A report that can be read. -/
structure ReadableReport (report : CheckReport) : Prop where
  repository : Short report.repository
  name : Short report.name
  detailsUrl : TextWithin Codec.MAX_DETAILS_URL report.detailsUrl
  summary : TextWithin Codec.MAX_SUMMARY report.summary

theorem reads_checkReport : Reads readCheckReport fields (fun m => ∃ report, ReadableReport report ∧
    m = .checkReport report) where
  read := by
    rintro _ ⟨report, h, rfl⟩ rest
    show readCheckReport (putReport report ++ rest) = _
    unfold putReport readCheckReport
    simp only [List.append_assoc]
    rw [reads_operation.bind_eq trivial, reads_shortStr.bind_eq h.repository, reads_id.bind_eq trivial,
      reads_optionalId.bind_eq trivial, reads_shortStr.bind_eq h.name, reads_conclusion.bind_eq trivial,
      (reads_optionalText (by decide)).bind_eq h.detailsUrl, (reads_optionalText (by decide)).bind_eq h.summary,
      reads_u64.bind_eq trivial, reads_u64.bind_eq trivial]
    rfl
  sound := by
    intro s m rest h
    obtain ⟨operation, s₁, _, rfl, h₁⟩ := reads_operation.bind_eq_ok h
    obtain ⟨repository, s₂, hrepository, rfl, h₂⟩ := reads_shortStr.bind_eq_ok h₁
    obtain ⟨tree, s₃, _, rfl, h₃⟩ := reads_id.bind_eq_ok h₂
    obtain ⟨checkpoint, s₄, _, rfl, h₄⟩ := reads_optionalId.bind_eq_ok h₃
    obtain ⟨name, s₅, hname, rfl, h₅⟩ := reads_shortStr.bind_eq_ok h₄
    obtain ⟨conclusion, s₆, _, rfl, h₆⟩ := reads_conclusion.bind_eq_ok h₅
    obtain ⟨url, s₇, hurl, rfl, h₇⟩ := (reads_optionalText (by decide)).bind_eq_ok h₆
    obtain ⟨summary, s₈, hsummary, rfl, h₈⟩ := (reads_optionalText (by decide)).bind_eq_ok h₇
    obtain ⟨started, s₉, _, rfl, h₉⟩ := reads_u64.bind_eq_ok h₈
    obtain ⟨completed, s₁₀, _, rfl, h₁₀⟩ := reads_u64.bind_eq_ok h₉
    cases h₁₀
    refine ⟨⟨⟨operation, repository, tree, checkpoint, name, conclusion, url, summary, started, completed⟩,
      ⟨hrepository, hname, hurl, hsummary⟩, rfl⟩, ?_⟩
    show _ = putReport _ ++ rest
    unfold putReport
    simp only [List.append_assoc]

theorem reads_detail : Reads readDetail (fun s => toBe 2 (text s).length ++ text s)
    (fun s => (text s).length ≤ MAX_DETAIL) :=
  (reads_sized endsInside (reads_within (by decide) _)).checked _ (fun _ hs => ⟨hs, utf8_eq_ok.mpr rfl⟩)
    (fun bs s hbs h => by
      rw [utf8_eq_ok] at h
      exact ⟨by rwa [← h], h.symm⟩)

theorem reads_error : Reads readError fields (fun m => ∃ code detail, Short code ∧
    (text detail).length ≤ MAX_DETAIL ∧ m = .error code detail) where
  read := by
    rintro _ ⟨code, detail, hcode, hdetail, rfl⟩ rest
    have hwritten : fields (.error code detail) ++ rest =
        putShort code ++ ((toBe 2 (text detail).length ++ text detail) ++ rest) := by
      show (putShort code ++ toBe 2 (truncateUtf8 detail MAX_DETAIL).length ++ truncateUtf8 detail MAX_DETAIL) ++
        rest = _
      rw [truncateUtf8_of_le hdetail]
      simp only [List.append_assoc]
    unfold readError
    rw [hwritten, reads_shortStr.bind_eq hcode, reads_detail.bind_eq hdetail]
    rfl
  sound := by
    intro s m rest h
    obtain ⟨code, s₁, hcode, rfl, h₁⟩ := reads_shortStr.bind_eq_ok h
    obtain ⟨detail, s₂, hdetail, rfl, h₂⟩ := reads_detail.bind_eq_ok h₁
    cases h₂
    refine ⟨⟨code, detail, hcode, hdetail, rfl⟩, ?_⟩
    show _ = (putShort code ++ toBe 2 (truncateUtf8 detail MAX_DETAIL).length ++ truncateUtf8 detail MAX_DETAIL) ++
      rest
    rw [truncateUtf8_of_le hdetail]
    simp only [List.append_assoc]

/-! ### All tags -/

/-- A message that `decode` can give. -/
def Readable : Message → Prop
  | .hello min max => min ≤ max
  | .want items | .missing items | .get items => items.length ≤ MAX_WANT
  | .objects objects => objects.length ≤ MAX_OBJECTS ∧ ∀ object ∈ objects, ReadableObject object
  | .layerOutcome (.refused code) => Short code
  | .publishOutcome (.conflict paths) => paths.length ≤ MAX_WANT
  | .publishOutcome (.refused code) => Short code
  | .changesetPart _ bytes => bytes.length ≤ MAX_CHANGESET_PART
  | .reviewOutcome (.refused code) => Short code
  | .comment _ _ _ body => (text body).length ≤ MAX_COMMENT
  | .checkReport report => ReadableReport report
  | .checkOutcome (.refused code) => Short code
  | .error code detail => Short code ∧ (text detail).length ≤ MAX_DETAIL
  | _ => True

/-- A tag's reader reads the messages of its kind. -/
structure Covers (tag : UInt8) (reader : FieldReader Message) : Prop where
  sound : ∀ s m rest, reader s = .ok (m, rest) → Readable m ∧ tag :: s = body m ++ rest

theorem Covers.of_reads {tag : UInt8} {reader : FieldReader Message} {P : Message → Prop}
    (h : Reads reader fields P) (hP : ∀ m, P m → Readable m ∧ body m = tag :: fields m) : Covers tag reader where
  sound s m rest hs := by
    obtain ⟨hm, hw⟩ := h.sound s m rest hs
    obtain ⟨hreadable, hbody⟩ := hP m hm
    rw [hbody, hw]
    exact ⟨hreadable, rfl⟩

theorem covers_readers : ∀ p ∈ readers, Covers p.1 p.2 := by
  unfold readers
  simp only [List.forall_mem_cons]
  refine ⟨.of_reads reads_hello ?_, .of_reads reads_helloOk ?_, .of_reads reads_permissions ?_,
    .of_reads reads_applied ?_, .of_reads (reads_items .want (fun _ => rfl)) ?_,
    .of_reads (reads_items .missing (fun _ => rfl)) ?_, .of_reads (reads_items .get (fun _ => rfl)) ?_,
    .of_reads reads_objects ?_, .of_reads reads_stored ?_, .of_reads reads_publish ?_,
    .of_reads reads_outcome ?_, .of_reads reads_layerAppend ?_, .of_reads reads_layerOutcome ?_,
    .of_reads reads_layerHead ?_, .of_reads reads_layerState ?_, .of_reads reads_layerStack ?_,
    .of_reads reads_publishLayer ?_, .of_reads reads_publishOutcome ?_, .of_reads reads_publishRequest ?_,
    .of_reads reads_resolve ?_, .of_reads reads_changeset ?_, .of_reads reads_changesetPart ?_,
    .of_reads reads_resolved ?_, .of_reads reads_openRequest ?_, .of_reads reads_reviewOutcome ?_,
    .of_reads reads_revise ?_, .of_reads reads_approve ?_, .of_reads reads_comment ?_,
    .of_reads reads_readRequest ?_, .of_reads reads_requestState ?_, .of_reads reads_checkReport ?_,
    .of_reads reads_checkOutcome ?_, .of_reads reads_error ?_, fun _ h => by cases h⟩
  · rintro _ ⟨_, _, h, rfl⟩
    exact ⟨h, rfl⟩
  · rintro _ ⟨_, rfl⟩
    exact ⟨trivial, rfl⟩
  · rintro _ rfl
    exact ⟨trivial, rfl⟩
  · rintro _ ⟨_, _, _, rfl⟩
    exact ⟨trivial, rfl⟩
  · rintro _ ⟨_, h, _, rfl⟩
    exact ⟨h, rfl⟩
  · rintro _ ⟨_, h, _, rfl⟩
    exact ⟨h, rfl⟩
  · rintro _ ⟨_, h, _, rfl⟩
    exact ⟨h, rfl⟩
  · rintro _ ⟨_, h, ho, rfl⟩
    exact ⟨⟨h, ho⟩, rfl⟩
  · rintro _ ⟨_, rfl⟩
    exact ⟨trivial, rfl⟩
  · rintro _ ⟨_, _, _, rfl⟩
    exact ⟨trivial, rfl⟩
  · rintro _ (⟨_, _, _, rfl⟩ | ⟨_, rfl⟩ | h)
    · exact ⟨trivial, rfl⟩
    · exact ⟨trivial, rfl⟩
    · exact h.elim
  · rintro _ ⟨_, _, _, _, rfl⟩
    exact ⟨trivial, rfl⟩
  · rintro _ (⟨_, _, rfl⟩ | ⟨_, rfl⟩ | ⟨_, h, rfl⟩ | h)
    · exact ⟨trivial, rfl⟩
    · exact ⟨trivial, rfl⟩
    · exact ⟨h, rfl⟩
    · exact h.elim
  · rintro _ ⟨_, rfl⟩
    exact ⟨trivial, rfl⟩
  · rintro _ ⟨_, _, _, _, _, rfl⟩
    exact ⟨trivial, rfl⟩
  · rintro _ ⟨_, _, _, _, rfl⟩
    exact ⟨trivial, rfl⟩
  · rintro _ ⟨_, _, _, _, _, rfl⟩
    exact ⟨trivial, rfl⟩
  · rintro _ (⟨_, _, _, rfl⟩ | ⟨_, h, _, rfl⟩ | ⟨_, rfl⟩ | ⟨_, h, rfl⟩ | h)
    · exact ⟨trivial, rfl⟩
    · exact ⟨h, rfl⟩
    · exact ⟨trivial, rfl⟩
    · exact ⟨h, rfl⟩
    · exact h.elim
  · rintro _ ⟨_, _, _, _, rfl⟩
    exact ⟨trivial, rfl⟩
  · rintro _ ⟨_, rfl⟩
    exact ⟨trivial, rfl⟩
  · rintro _ ⟨_, _, rfl⟩
    exact ⟨trivial, rfl⟩
  · rintro _ ⟨_, _, h, rfl⟩
    exact ⟨h, rfl⟩
  · rintro _ ⟨_, _, _, rfl⟩
    exact ⟨trivial, rfl⟩
  · rintro _ ⟨_, _, _, _, _, rfl⟩
    exact ⟨trivial, rfl⟩
  · rintro _ (⟨_, rfl⟩ | ⟨_, h, rfl⟩ | h)
    · exact ⟨trivial, rfl⟩
    · exact ⟨h, rfl⟩
    · exact h.elim
  · rintro _ ⟨_, _, _, _, _, rfl⟩
    exact ⟨trivial, rfl⟩
  · rintro _ ⟨_, _, _, rfl⟩
    exact ⟨trivial, rfl⟩
  · rintro _ ⟨_, _, _, _, h, rfl⟩
    exact ⟨h, rfl⟩
  · rintro _ ⟨_, rfl⟩
    exact ⟨trivial, rfl⟩
  · rintro _ ⟨_, _, _, rfl⟩
    exact ⟨trivial, rfl⟩
  · rintro _ ⟨_, h, rfl⟩
    exact ⟨h, rfl⟩
  · rintro _ (⟨_, _, rfl⟩ | ⟨_, h, rfl⟩ | h)
    · exact ⟨trivial, rfl⟩
    · exact ⟨h, rfl⟩
    · exact h.elim
  · rintro _ ⟨_, _, hc, hd, rfl⟩
    exact ⟨⟨hc, hd⟩, rfl⟩

theorem readMessage_cons {tag : UInt8} {reader : FieldReader Message} (h : readers.lookup tag = some reader)
    (s : Str) : readMessage (tag :: s) = reader s := by
  have hread : ∀ f : UInt8 → FieldReader Message, (readU8 >>= f) (tag :: s) = f tag s := fun _ => rfl
  unfold readMessage
  rw [hread, h]

theorem readMessage_body {m : Message} (h : Readable m) (rest : Str) :
    readMessage (body m ++ rest) = .ok (m, rest) := by
  cases m with
  | hello min max => exact (readMessage_cons rfl _).trans (reads_hello.read _ ⟨_, _, h, rfl⟩ rest)
  | helloOk version => exact (readMessage_cons rfl _).trans (reads_helloOk.read _ ⟨_, rfl⟩ rest)
  | permissions => exact (readMessage_cons rfl _).trans (reads_permissions.read _ rfl rest)
  | applied epoch role visibility =>
      exact (readMessage_cons rfl _).trans
        (reads_applied.read _ ⟨_, _, _, rfl⟩ rest)
  | want items =>
      exact (readMessage_cons rfl _).trans
        ((reads_items .want (fun _ => rfl)).read _ ⟨_, h, fun item _ => ⟨item.1, item.2, rfl⟩, rfl⟩ rest)
  | missing items =>
      exact (readMessage_cons rfl _).trans
        ((reads_items .missing (fun _ => rfl)).read _ ⟨_, h, fun item _ => ⟨item.1, item.2, rfl⟩, rfl⟩ rest)
  | get items =>
      exact (readMessage_cons rfl _).trans
        ((reads_items .get (fun _ => rfl)).read _ ⟨_, h, fun item _ => ⟨item.1, item.2, rfl⟩, rfl⟩ rest)
  | objects objects => exact (readMessage_cons rfl _).trans (reads_objects.read _ ⟨_, h.1, h.2, rfl⟩ rest)
  | stored count => exact (readMessage_cons rfl _).trans (reads_stored.read _ ⟨_, rfl⟩ rest)
  | publish operation expected tree =>
      exact (readMessage_cons rfl _).trans
        (reads_publish.read _ ⟨_, _, _, rfl⟩ rest)
  | outcome result =>
      cases result with
      | accepted number tree operation =>
          exact (readMessage_cons rfl _).trans
            (reads_outcome.read _ (.inl ⟨_, _, _, rfl⟩) rest)
      | stale actual => exact (readMessage_cons rfl _).trans (reads_outcome.read _ (.inr (.inl ⟨_, rfl⟩)) rest)
  | layerAppend operation layer parent checkpoint =>
      exact (readMessage_cons rfl _).trans
        (reads_layerAppend.read _ ⟨_, _, _, _, rfl⟩ rest)
  | layerOutcome outcome =>
      cases outcome with
      | accepted seq checkpoint =>
          exact (readMessage_cons rfl _).trans
            (reads_layerOutcome.read _ (.inl ⟨_, _, rfl⟩) rest)
      | stale head => exact (readMessage_cons rfl _).trans (reads_layerOutcome.read _ (.inr (.inl ⟨_, rfl⟩)) rest)
      | refused code =>
          exact (readMessage_cons rfl _).trans
            (reads_layerOutcome.read _ (.inr (.inr (.inl ⟨_, h, rfl⟩))) rest)
  | layerHead layer => exact (readMessage_cons rfl _).trans (reads_layerHead.read _ ⟨_, rfl⟩ rest)
  | layerState layer base seq head state =>
      exact (readMessage_cons rfl _).trans
        (reads_layerState.read _ ⟨_, _, _, _, _, rfl⟩ rest)
  | layerStack operation target targetHead source =>
      exact (readMessage_cons rfl _).trans
        (reads_layerStack.read _ ⟨_, _, _, _, rfl⟩ rest)
  | publishLayer operation layer expected base attribution =>
      exact (readMessage_cons rfl _).trans
        (reads_publishLayer.read _ ⟨_, _, _, _, _, rfl⟩ rest)
  | publishOutcome outcome =>
      cases outcome with
      | published number id tree =>
          exact (readMessage_cons rfl _).trans
            (reads_publishOutcome.read _ (.inl ⟨_, _, _, rfl⟩) rest)
      | conflict paths =>
          exact (readMessage_cons rfl _).trans
            (reads_publishOutcome.read _ (.inr (.inl ⟨_, h, fun _ _ => trivial, rfl⟩)) rest)
      | layerStale head =>
          exact (readMessage_cons rfl _).trans
            (reads_publishOutcome.read _ (.inr (.inr (.inl ⟨_, rfl⟩))) rest)
      | refused code =>
          exact (readMessage_cons rfl _).trans
            (reads_publishOutcome.read _ (.inr (.inr (.inr (.inl ⟨_, h, rfl⟩)))) rest)
  | publishRequest operation request revision base =>
      exact (readMessage_cons rfl _).trans
        (reads_publishRequest.read _ ⟨_, _, _, _, rfl⟩ rest)
  | resolve version => exact (readMessage_cons rfl _).trans (reads_resolve.read _ ⟨_, rfl⟩ rest)
  | resolved number id tree => exact (readMessage_cons rfl _).trans (reads_resolved.read _ ⟨_, _, _, rfl⟩ rest)
  | changeset version offset => exact (readMessage_cons rfl _).trans (reads_changeset.read _ ⟨_, _, rfl⟩ rest)
  | changesetPart total bytes =>
      exact (readMessage_cons rfl _).trans
        (reads_changesetPart.read _ ⟨_, _, h, rfl⟩ rest)
  | openRequest operation request layer checkpoint base =>
      exact (readMessage_cons rfl _).trans
        (reads_openRequest.read _ ⟨_, _, _, _, _, rfl⟩ rest)
  | reviewOutcome outcome =>
      cases outcome with
      | accepted revision => exact (readMessage_cons rfl _).trans (reads_reviewOutcome.read _ (.inl ⟨_, rfl⟩) rest)
      | refused code =>
          exact (readMessage_cons rfl _).trans
            (reads_reviewOutcome.read _ (.inr (.inl ⟨_, h, rfl⟩)) rest)
  | revise operation request expected checkpoint base =>
      exact (readMessage_cons rfl _).trans
        (reads_revise.read _ ⟨_, _, _, _, _, rfl⟩ rest)
  | approve operation request revision =>
      exact (readMessage_cons rfl _).trans
        (reads_approve.read _ ⟨_, _, _, rfl⟩ rest)
  | comment operation request revision text =>
      exact (readMessage_cons rfl _).trans
        (reads_comment.read _ ⟨_, _, _, _, h, rfl⟩ rest)
  | readRequest request => exact (readMessage_cons rfl _).trans (reads_readRequest.read _ ⟨_, rfl⟩ rest)
  | checkReport report => exact (readMessage_cons rfl _).trans (reads_checkReport.read _ ⟨_, h, rfl⟩ rest)
  | checkOutcome outcome =>
      cases outcome with
      | accepted id seq => exact (readMessage_cons rfl _).trans (reads_checkOutcome.read _ (.inl ⟨_, _, rfl⟩) rest)
      | refused code =>
          exact (readMessage_cons rfl _).trans
            (reads_checkOutcome.read _ (.inr (.inl ⟨_, h, rfl⟩)) rest)
  | requestState request state revision =>
      exact (readMessage_cons rfl _).trans
        (reads_requestState.read _ ⟨_, _, _, rfl⟩ rest)
  | error code detail => exact (readMessage_cons rfl _).trans (reads_error.read _ ⟨_, _, h.1, h.2, rfl⟩ rest)

theorem readMessage_sound {s rest : Str} {m : Message} (h : readMessage s = .ok (m, rest)) :
    Readable m ∧ s = body m ++ rest := by
  obtain ⟨tag, s₁, _, rfl, h₁⟩ := reads_u8.bind_eq_ok h
  cases hl : readers.lookup tag with
  | none =>
      rw [hl] at h₁
      cases h₁
  | some reader =>
      rw [hl] at h₁
      obtain ⟨l₁, l₂, hreaders, _⟩ := List.lookup_eq_some_iff.mp hl
      exact (covers_readers (tag, reader) (by rw [hreaders]; simp)).sound s₁ m rest h₁

end Javelin.Wire
