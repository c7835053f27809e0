import Javelin.Histories

/-! # Layer transactions

What creating a Layer and updating it do to a sound repository.  `of_updateIn` says all that
`updateIn` can do: it answers a recorded operation and changes nothing, or it records a new one
(`Recorded`).  Either way the state after is sound and later (`createIn_sound`, `Recorded.sound`).

A published Layer refuses new operations (`of_refusePublished`), so its events are final. -/

namespace Javelin

open KeyedList

variable {Id : Type} [LinearOrder Id] [Encoding Id]

/-! ### Inserting objects -/

namespace Objects
variable {objects objects' : Objects Id} {id : Id} {o : Object Id}

omit [LinearOrder Id] [Encoding Id] in
theorem extends_of_insert [DecidableEq Id] [ObjectHash Id] (h : objects.insert o = .ok (id, objects')) :
    objects.Extends objects' := by
  obtain ⟨⟨_, rfl⟩, _⟩ := insert_eq_ok.mp h
  exact extends_add objects o

omit [LinearOrder Id] [Encoding Id] in
theorem Honest.of_insert [DecidableEq Id] [ObjectHash Id] (hh : objects.Honest)
    (h : objects.insert o = .ok (id, objects')) : objects'.Honest := by
  obtain ⟨⟨_, rfl⟩, _⟩ := insert_eq_ok.mp h
  exact hh.add o

omit [LinearOrder Id] [Encoding Id] in
theorem read_of_insert [DecidableEq Id] [ObjectHash Id] (h : objects.insert o = .ok (id, objects')) :
    objects'.read id o.kind = .ok o := by
  obtain ⟨⟨rfl, rfl⟩, hor⟩ := insert_eq_ok.mp h
  refine read_eq_ok.mpr ⟨?_, rfl, rfl⟩
  rw [lookup_add_self]
  rcases hor with hnone | hsome
  · rw [hnone]
    rfl
  · rw [hsome]
    rfl

theorem readBlob_of_insert {bytes : Str} (h : objects.insert (.blob bytes) = .ok (id, objects')) :
    objects'.readBlob id = .ok bytes := by
  have hread : objects'.read id .blob = .ok (.blob bytes) := read_of_insert h
  unfold readBlob
  rw [except_bind_of_ok hread]
  rfl

theorem readCheckpoint_of_insert {c : EncodedCheckpoint Id}
    (h : objects.insert (.checkpoint c) = .ok (id, objects')) : objects'.readCheckpoint id = .ok c := by
  have hread : objects'.read id .checkpoint = .ok (.checkpoint c) := read_of_insert h
  unfold readCheckpoint
  rw [except_bind_of_ok hread]
  rfl

/-- No checkpoint was added. -/
def NoCheckpoints (objects objects' : Objects Id) : Prop :=
  ∀ id c, objects'.readCheckpoint id = .ok c → objects.readCheckpoint id = .ok c

omit [LinearOrder Id] [Encoding Id] in
theorem readCheckpoint_eq_ok [DecidableEq Id] [ObjectHash Id] {c : EncodedCheckpoint Id} :
    objects.readCheckpoint id = .ok c ↔ objects.read id .checkpoint = .ok (.checkpoint c) := by
  unfold readCheckpoint
  rw [except_bind_eq_ok]
  constructor
  · rintro ⟨o, ho, hc⟩
    have hk := (read_eq_ok.mp ho).2.2
    cases o with
    | checkpoint c' =>
        obtain rfl := Except.ok.inj hc
        exact ho
    | blob _ => cases hk
    | manifest _ => cases hk
    | tree _ => cases hk
  · exact fun ho => ⟨_, ho, rfl⟩

theorem NoCheckpoints.of_lookup
    (h : ∀ id o, objects'.lookup id = some o → o.kind = .checkpoint → objects.lookup id = some o) :
    objects.NoCheckpoints objects' := by
  intro id c hread
  rw [readCheckpoint_eq_ok, read_eq_ok] at hread ⊢
  exact ⟨h _ _ hread.1 hread.2.2, hread.2⟩

theorem NoCheckpoints.trans {objects'' : Objects Id} (h : objects.NoCheckpoints objects')
    (h' : objects'.NoCheckpoints objects'') : objects.NoCheckpoints objects'' :=
  fun id c hread => h id c (h' id c hread)

/-- What an insertion adds is the object. -/
theorem lookup_of_insert (h : objects.insert o = .ok (id, objects')) {id' : Id} {o' : Object Id}
    (hl : objects'.lookup id' = some o') : objects.lookup id' = some o' ∨ (id' = id ∧ o' = o) := by
  obtain ⟨⟨rfl, rfl⟩, hor⟩ := insert_eq_ok.mp h
  by_cases hid : id' = objectId o
  · subst hid
    rw [lookup_add_self] at hl
    rcases hor with hnone | hsome
    · rw [hnone] at hl
      exact Or.inr ⟨rfl, (Option.some.inj hl).symm⟩
    · rw [hsome] at hl
      exact Or.inr ⟨rfl, (Option.some.inj hl).symm⟩
  · rw [lookup_add_of_ne hid] at hl
    exact Or.inl hl

/-- Objects of other kinds are no checkpoints. -/
theorem noCheckpoints_of_insert (h : objects.insert o = .ok (id, objects'))
    (hk : o.kind ≠ .checkpoint) : objects.NoCheckpoints objects' := by
  apply NoCheckpoints.of_lookup
  intro id' o' hl hk'
  rcases lookup_of_insert h hl with hl' | ⟨_, rfl⟩
  · exact hl'
  · exact absurd hk' hk

theorem Grows.noCheckpoints (h : objects.Grows objects') : objects.NoCheckpoints objects' := by
  apply NoCheckpoints.of_lookup
  intro id o hl hk
  apply h.other id o hl
  rw [hk]
  simp

/-- Inserting an object that is stored changes nothing. -/
theorem insert_of_read (hh : objects.Honest) {k : ObjectKind} (h : objects.read id k = .ok o) :
    objects.insert o = .ok (id, objects) := by
  obtain ⟨hl, rfl, _⟩ := read_eq_ok.mp h
  rw [hh.insert_eq]
  unfold add
  rw [hl]

end Objects

namespace Repository
variable {r r' : Repository Id} {S : VersionNumber → Manifest Id}

/-! ### Writes to the Layer tables -/

/-- Only objects and the tables of Layers were written. -/
structure LayersOnly (r r' : Repository Id) : Prop where
  identity : r'.identity = r.identity
  objects : r.objects.Extends r'.objects
  honest : r.objects.Honest → r'.objects.Honest
  versions : r'.versions = r.versions
  changes : r'.changes = r.changes
  attempts : r'.attempts = r.attempts
  publications : r'.publications = r.publications

theorem LayersOnly.of_objects {objects : Objects Id} (hext : r.objects.Extends objects)
    (hhonest : r.objects.Honest → objects.Honest) : LayersOnly r { r with objects := objects } :=
  ⟨rfl, hext, hhonest, rfl, rfl, rfl, rfl⟩

/-- Such writes lead to a later state if they keep what is recorded of Layers. -/
theorem LayersOnly.later (h : LayersOnly r r')
    (hevents : ∀ layer n e, (r.events layer).get? n = some e → (r'.events layer).get? n = some e)
    (hattempts : ∀ op a, r.layerAttempts.get? op = some a → r'.layerAttempts.get? op = some a ∧
      r'.stackRows.get? op = r.stackRows.get? op)
    (hopen : ∀ layer, r'.events layer = r.events layer ∨ r.successOf layer = none) : Later r r' where
  identity := h.identity
  objects := h.objects
  versions n v hv := h.versions.symm ▸ hv
  changes n _ := by rw [h.changes]
  attempts op a ha := h.attempts.symm ▸ ha
  events := hevents
  layerAttempts op a ha := (hattempts op a ha).1
  stackRows op a ha := (hattempts op a ha).2
  publications op row hrow := h.publications.symm ▸ hrow
  published op row hrow _ := Or.inl (h.publications ▸ hrow)
  final op row hrow htag := by
    rcases hopen row.layer with he | hnone
    · exact he
    · exact absurd htag (successOf_eq_none.mp hnone op row hrow rfl)
  unowned op row _ ha := h.attempts.symm ▸ ha

theorem LayersOnly.chain (h : LayersOnly r r') (hc : Chain r S) : Chain r' S :=
  hc.keep (h.honest hc.honest) h.objects h.versions h.changes (fun _ _ ha => h.attempts.symm ▸ ha)

/-- And to a sound one if what they add is. -/
theorem LayersOnly.sound (h : LayersOnly r r') (hs : Sound r S) (hl : Later r r')
    (hhistory : ∀ layer, r'.events layer = r.events layer ∨ History r' S layer)
    (houtcomes : ∀ op a, r'.layerAttempts.get? op = some a →
      r.layerAttempts.get? op = some a ∨ ∃ outcome, r'.layerOutcome op = .ok outcome)
    (hbindings : ∀ op row, r'.stackRows.get? op = some row →
      r.stackRows.get? op = some row ∨ ∃ a, r'.layerAttempts.get? op = some a) : Sound r' S := by
  apply hs.later hl (h.chain hs.chain) (by rw [h.versions]; exact hs.bounded) hhistory houtcomes hbindings
  · rw [h.publications]
    exact fun _ _ hrow => Or.inl hrow
  · rw [h.publications]
    exact hs.once

/-- Storing objects keeps a repository sound. -/
theorem Sound.objects (hs : Sound r S) {objects : Objects Id} (hext : r.objects.Extends objects)
    (hhonest : objects.Honest) :
    Later r { r with objects := objects } ∧ Sound { r with objects := objects } S := by
  have h : LayersOnly r { r with objects := objects } := .of_objects hext (fun _ => hhonest)
  have hl : Later r { r with objects := objects } :=
    h.later (fun _ _ _ he => he) (fun _ _ ha => ⟨ha, rfl⟩) (fun _ => Or.inl rfl)
  exact ⟨hl, h.sound hs hl (fun _ => Or.inl rfl) (fun _ _ ha => Or.inl ha) (fun _ _ hr => Or.inl hr)⟩

/-- What a prepared checkpoint is. -/
structure PreparedAs (r : Repository Id) (base : LayerBase Id) (sources : List Id)
    (candidate : LayerCandidate Id) (objects : Objects Id) : Prop where
  keeps : r.objects.Extends objects
  honest : r.objects.Honest → objects.Honest
  stored : objects.readCheckpoint candidate.id = .ok ⟨base, candidate.changes, sources, candidate.provenance⟩
  adds : ∀ id c, objects.readCheckpoint id = .ok c → r.objects.readCheckpoint id = .ok c ∨ id = candidate.id

/-- Preparing a checkpoint only stores objects. -/
theorem of_prepareCheckpoint {base : LayerBase Id} {changes : SparseChanges Id} {sources : List Id}
    {provenance : Option Provenance} {candidate : LayerCandidate Id}
    (hok : r.prepareCheckpoint base changes sources provenance = .ok (candidate, r')) :
    ∃ objects, r' = { r with objects := objects } ∧ PreparedAs r base sources candidate objects ∧
      r.validateBase base = .ok () ∧ r.normalizeIn base.version changes = .ok candidate.changes := by
  unfold prepareCheckpoint at hok
  obtain ⟨_, hbase, h₁⟩ := except_bind_eq_ok.mp hok
  obtain ⟨normalized, hnormal, h₂⟩ := except_bind_eq_ok.mp h₁
  obtain ⟨⟨stored, objects₁⟩, hprov, h₃⟩ := except_bind_eq_ok.mp h₂
  obtain ⟨⟨id, objects⟩, hinsert, h₄⟩ := except_bind_eq_ok.mp h₃
  obtain ⟨rfl, rfl⟩ := Prod.mk.inj (Except.ok.inj h₄)
  have hfirst : r.objects.Extends objects₁ ∧ (r.objects.Honest → objects₁.Honest) ∧
      r.objects.NoCheckpoints objects₁ := by
    unfold Objects.storeProvenance at hprov
    cases provenance with
    | none =>
        obtain ⟨_, rfl⟩ := Prod.mk.inj (Except.ok.inj hprov)
        exact ⟨.refl _, fun hh => hh, fun _ _ h => h⟩
    | some p =>
        obtain ⟨⟨pid, objects₂⟩, hp, hpure⟩ := except_bind_eq_ok.mp hprov
        obtain ⟨_, rfl⟩ := Prod.mk.inj (Except.ok.inj hpure)
        exact ⟨Objects.extends_of_insert hp, fun hh => hh.of_insert hp,
          Objects.noCheckpoints_of_insert hp (by simp [Object.kind])⟩
  obtain ⟨hext, hhonest, hkept⟩ := hfirst
  refine ⟨objects, rfl, ⟨?_, ?_, Objects.readCheckpoint_of_insert hinsert, ?_⟩, hbase, hnormal⟩
  · exact hext.trans (Objects.extends_of_insert hinsert)
  · exact fun hh => (hhonest hh).of_insert hinsert
  · intro id' c hread
    have hread' := Objects.read_eq_ok.mp (Objects.readCheckpoint_eq_ok.mp hread)
    rcases Objects.lookup_of_insert hinsert hread'.1 with hl | ⟨hid, _⟩
    · exact Or.inl (hkept id' c (Objects.readCheckpoint_eq_ok.mpr
        (Objects.read_eq_ok.mpr ⟨hl, hread'.2⟩)))
    · exact Or.inr hid

/-- The ID and the provenance of a prepared checkpoint are hashes of its contents. -/
theorem ids_of_prepareCheckpoint {base : LayerBase Id} {changes : SparseChanges Id}
    {sources : List Id} {provenance : Option Provenance} {candidate : LayerCandidate Id}
    (hok : r.prepareCheckpoint base changes sources provenance = .ok (candidate, r')) :
    candidate.provenance =
        provenance.map (fun p => objectId (.blob (provenanceBytes Id p) : Object Id)) ∧
      candidate.id = objectId (.checkpoint ⟨base, candidate.changes, sources, candidate.provenance⟩) := by
  unfold prepareCheckpoint at hok
  obtain ⟨_, _, h₁⟩ := except_bind_eq_ok.mp hok
  obtain ⟨normalized, _, h₂⟩ := except_bind_eq_ok.mp h₁
  obtain ⟨⟨stored, objects₁⟩, hstore, h₃⟩ := except_bind_eq_ok.mp h₂
  obtain ⟨⟨id, objects⟩, hinsert, h₄⟩ := except_bind_eq_ok.mp h₃
  obtain ⟨rfl, _⟩ := Prod.mk.inj (Except.ok.inj h₄)
  refine ⟨?_, (Objects.insert_eq_ok.mp hinsert).1.1.symm⟩
  unfold Objects.storeProvenance at hstore
  cases provenance with
  | none => exact (Prod.mk.inj (Except.ok.inj hstore)).1.symm
  | some p =>
      obtain ⟨⟨blob, objects₂⟩, hblob, hpure⟩ := except_bind_eq_ok.mp hstore
      obtain ⟨rfl, _⟩ := Prod.mk.inj (Except.ok.inj hpure)
      exact congrArg some (Objects.insert_eq_ok.mp hblob).1.1.symm

theorem PreparedAs.sound {base : LayerBase Id} {sources : List Id} {candidate : LayerCandidate Id}
    {objects : Objects Id} (h : PreparedAs r base sources candidate objects) (hs : Sound r S) :
    Later r { r with objects := objects } ∧ Sound { r with objects := objects } S :=
  hs.objects h.keeps (h.honest hs.chain.honest)

/-! ### Creating a Layer -/

omit [LinearOrder Id] [Encoding Id] in
theorem events_putEvent {layer layer' : LayerId} {revision : ℕ} {event : Event Id} :
    (r.putEvent layer revision event).events layer' =
      if layer = layer' then (r.events layer').insert revision event else r.events layer' := by
  unfold putEvent events
  simp only [SortedMap.get?_insert]
  by_cases h : layer = layer'
  · subst h
    rw [if_pos rfl, if_pos rfl]
    rfl
  · rw [if_neg h, if_neg h]

omit [LinearOrder Id] [Encoding Id] in
theorem get?_eq_none_of_toList {m : SortedMap ℕ (Event Id)} (h : m.toList = []) (n : ℕ) :
    m.get? n = none := by
  rw [SortedMap.get?_eq_none, SortedMap.keys, h]
  simp

omit [Encoding Id] in
/-- Creating a Layer answers a retry, or adds its first event and tracks it. -/
theorem of_createIn {layer : LayerId} {candidate : LayerCandidate Id} {head : LayerHead Id}
    (hok : r.createIn layer candidate = .ok (head, r')) :
    head = ⟨r.identity, layer, 0, candidate.id⟩ ∧
      ((r' = r ∧ ∃ e, (r.events layer).get? 0 = some e ∧ e.checkpoint = candidate.id) ∨
      ((∀ n, (r.events layer).get? n = none) ∧
        r' = (r.putEvent layer 0 ⟨candidate.id, false, none⟩).trackIn layer candidate)) := by
  unfold createIn at hok
  by_cases hnew : (r.events layer).toList = []
  · rw [if_neg (not_not.mpr hnew)] at hok
    obtain ⟨rfl, rfl⟩ := Prod.mk.inj (Except.ok.inj hok)
    exact ⟨rfl, Or.inr ⟨get?_eq_none_of_toList hnew, rfl⟩⟩
  · rw [if_pos hnew] at hok
    obtain ⟨e, he, h₁⟩ := except_bind_eq_ok.mp hok
    obtain ⟨_, hsame, h₂⟩ := except_bind_eq_ok.mp h₁
    obtain ⟨rfl, rfl⟩ := Prod.mk.inj (Except.ok.inj h₂)
    rw [refuse_eq_ok, not_not] at hsame
    exact ⟨rfl, Or.inl ⟨rfl, e, eventIn_eq_ok.mp he, hsame⟩⟩

/-- A Layer without events has no success. -/
theorem Sound.successOf_of_empty (hs : Sound r S) {layer : LayerId}
    (hempty : ∀ n, (r.events layer).get? n = none) : r.successOf layer = none := by
  rw [successOf_eq_none]
  rintro op row hrow rfl htag
  obtain ⟨head, version, hsucc⟩ := hs.succeeded hrow htag
  obtain ⟨e, he, _⟩ := layerHeadIn_eq_ok.mp hsucc.expected
  rw [hempty] at he
  cases he

/-- A new Layer with a frozen checkpoint is sound. -/
theorem created_sound (hs : Sound r S) {layer : LayerId} {candidate : LayerCandidate Id}
    (hempty : ∀ n, (r.events layer).get? n = none) {checkpoint : LayerCheckpoint Id}
    (hf : Frozen r S candidate.id checkpoint) :
    Later r ((r.putEvent layer 0 ⟨candidate.id, false, none⟩).trackIn layer candidate) ∧
      Sound ((r.putEvent layer 0 ⟨candidate.id, false, none⟩).trackIn layer candidate) S := by
  have h : LayersOnly r ((r.putEvent layer 0 ⟨candidate.id, false, none⟩).trackIn layer candidate) :=
    ⟨rfl, .refl _, fun hh => hh, rfl, rfl, rfl, rfl⟩
  have hevents : ∀ layer', ((r.putEvent layer 0 ⟨candidate.id, false, none⟩).trackIn layer
      candidate).events layer' = if layer = layer' then
        (r.events layer').insert 0 ⟨candidate.id, false, none⟩ else r.events layer' :=
    fun _ => events_putEvent
  have hattempts : ((r.putEvent layer 0 ⟨candidate.id, false, none⟩).trackIn layer
      candidate).layerAttempts = r.layerAttempts := rfl
  have hrows : ((r.putEvent layer 0 ⟨candidate.id, false, none⟩).trackIn layer
      candidate).stackRows = r.stackRows := rfl
  generalize (r.putEvent layer 0 ⟨candidate.id, false, none⟩).trackIn layer candidate = r' at *
  have hone : ∀ n e, (r'.events layer).get? n = some e → n = 0 ∧ e = ⟨candidate.id, false, none⟩ := by
    intro n e he
    rw [hevents, if_pos rfl, SortedMap.get?_insert] at he
    by_cases hn : 0 = n
    · rw [if_pos hn] at he
      exact ⟨hn.symm, (Option.some.inj he).symm⟩
    · rw [if_neg hn, hempty] at he
      cases he
  have hl : Later r r' := by
    apply h.later
    · intro layer' n e he
      rw [hevents]
      by_cases hlayer : layer = layer'
      · subst hlayer
        rw [hempty] at he
        cases he
      · rwa [if_neg hlayer]
    · rw [hattempts, hrows]
      exact fun _ _ ha => ⟨ha, rfl⟩
    · intro layer'
      by_cases hlayer : layer = layer'
      · subst hlayer
        exact Or.inr (hs.successOf_of_empty hempty)
      · exact Or.inl (by rw [hevents, if_neg hlayer])
  refine ⟨hl, h.sound hs hl ?_ ?_ ?_⟩
  · intro layer'
    by_cases hlayer : layer = layer'
    · subst hlayer
      refine Or.inr ⟨?_, ?_, ?_, ?_, ?_, ⟨checkpoint.base, ?_⟩⟩
      · intro n m e he hle
        obtain ⟨rfl, rfl⟩ := hone m e he
        obtain rfl := Nat.le_zero.mp hle
        exact ⟨_, he⟩
      · intro e he
        obtain ⟨_, rfl⟩ := hone 0 e he
        exact ⟨rfl, rfl⟩
      · intro n e he
        exact absurd (hone _ e he).1 (Nat.succ_ne_zero n)
      · intro n e e' _ he'
        exact absurd (hone _ e' he').1 (Nat.succ_ne_zero n)
      · intro n e he
        rw [(hone n e he).1]
        exact Nat.two_pow_pos 63
      · intro n e he
        obtain ⟨_, rfl⟩ := hone n e he
        exact ⟨checkpoint, hf.later hl hs.chain (h.chain hs.chain), rfl⟩
    · exact Or.inl (by rw [hevents, if_neg hlayer])
  · rw [hattempts]
    exact fun _ _ ha => Or.inl ha
  · rw [hrows]
    exact fun _ _ hrow => Or.inl hrow

/-! ### Updating a Layer -/

/-- The new row of an attempt. -/
def Update.attempt (u : Update Id) (accepted : Bool) (result : ℕ) : LayerAttempt Id :=
  ⟨u.expected.layer, u.expected.revision, u.candidate.id, u.discard, u.source.isSome, accepted, result⟩

/-- A new operation was recorded: whether it was accepted, and all it wrote. -/
structure Recorded (r : Repository Id) (op : OperationId) (u : Update Id) (outcome : LayerUpdate Id)
    (revision : ℕ) (current : Event Id) (accepted : Bool) (result : ℕ) (r' : Repository Id) : Prop where
  fresh : r.layerAttempts.get? op = none
  latest : r.latestIn u.expected.layer = .ok (revision, current)
  decided : accepted = true ↔ revision = u.expected.revision ∧ current.discarded = false
  advanced : result = if accepted = true then revision + 1 else revision
  room : accepted = true → revision + 1 < REVISIONS
  only : LayersOnly r r'
  layerAttempts : r'.layerAttempts = r.layerAttempts.insert op (u.attempt accepted result)
  stackRows : ∀ op', op' ≠ op → r'.stackRows.get? op' = r.stackRows.get? op'
  source : (r.stackRows.get? op = none → r'.sourceIn op = u.source) ∧
    (u.source ≠ none → r'.resolutionIn op = .ok u.resolution)
  events : ∀ layer, r'.events layer = if accepted = true ∧ u.expected.layer = layer then
    (r.events layer).insert result ⟨u.candidate.id, u.discard, some op⟩ else r.events layer
  layerPaths : r'.layerPaths = if accepted = true then
      (if u.discard = true then r.layerPaths.erase u.expected.layer
      else (r.trackIn u.expected.layer u.candidate).layerPaths) else r.layerPaths
  blame : r'.blame = r.blame
  checkpoints : r.objects.NoCheckpoints r'.objects
  outcome : r'.layerOutcome op = .ok outcome

omit [LinearOrder Id] [Encoding Id] in
theorem updateResult_eq_ok {revision result : ℕ} {accepted : Bool} :
    (updateResult revision accepted : Except (Error Id) ℕ) = .ok result ↔
      result = (if accepted = true then revision + 1 else revision) ∧
        (accepted = true → revision + 1 < REVISIONS) := by
  unfold updateResult
  cases accepted with
  | false =>
      rw [if_neg (by simp), if_neg (by simp)]
      constructor
      · intro h
        exact ⟨(Except.ok.inj h).symm, by simp⟩
      · rintro ⟨rfl, _⟩
        rfl
  | true =>
      rw [if_pos rfl, if_pos rfl, except_bind_eq_ok]
      simp only [refuse_eq_ok, not_le, true_implies]
      constructor
      · rintro ⟨_, hlt, hpure⟩
        exact ⟨(Except.ok.inj hpure).symm, hlt⟩
      · rintro ⟨rfl, hlt⟩
        exact ⟨(), hlt, rfl⟩

/-- The tables after an attempt, before a Stack is bound. -/
structure Attempted (r : Repository Id) (op : OperationId) (u : Update Id) (accepted : Bool)
    (result : ℕ) (r' : Repository Id) : Prop where
  only : LayersOnly r r'
  objects : r'.objects = r.objects
  layerAttempts : r'.layerAttempts = r.layerAttempts.insert op (u.attempt accepted result)
  stackRows : r'.stackRows = r.stackRows
  events : ∀ layer, r'.events layer = if accepted = true ∧ u.expected.layer = layer then
    (r.events layer).insert result ⟨u.candidate.id, u.discard, some op⟩ else r.events layer
  layerPaths : r'.layerPaths = if accepted = true then
      (if u.discard = true then r.layerPaths.erase u.expected.layer
      else (r.trackIn u.expected.layer u.candidate).layerPaths) else r.layerPaths
  blame : r'.blame = r.blame

/-- The row of an attempt and, if it is accepted, its event. -/
theorem attempted (r : Repository Id) (op : OperationId) (u : Update Id) (accepted : Bool)
    (result : ℕ) (r₁ : Repository Id)
    (hr₁ : r₁ = { r with layerAttempts := r.layerAttempts.insert op (u.attempt accepted result) }) :
    Attempted r op u accepted result (if accepted = true then r₁.acceptUpdate op u result else r₁) := by
  subst hr₁
  cases accepted with
  | false => exact ⟨⟨rfl, .refl _, fun h => h, rfl, rfl, rfl, rfl⟩, rfl, rfl, rfl, fun _ => rfl, rfl, rfl⟩
  | true =>
      have hevents : ∀ layer, (r.putEvent u.expected.layer result
          ⟨u.candidate.id, u.discard, some op⟩).events layer =
          if true = true ∧ u.expected.layer = layer then
            (r.events layer).insert result ⟨u.candidate.id, u.discard, some op⟩ else r.events layer := by
        intro layer
        rw [events_putEvent]
        simp
      obtain ⟨expected, candidate, discard, source, resolution⟩ := u
      rw [if_pos rfl]
      cases discard with
      | false => exact ⟨⟨rfl, .refl _, fun h => h, rfl, rfl, rfl, rfl⟩, rfl, rfl, rfl, hevents, rfl, rfl⟩
      | true => exact ⟨⟨rfl, .refl _, fun h => h, rfl, rfl, rfl, rfl⟩, rfl, rfl, rfl, hevents, rfl, rfl⟩

/-- What binding a Stack writes. -/
theorem of_bindUpdate {op : OperationId} {u : Update Id} {accepted : Bool} {result : ℕ}
    (hok : r.bindUpdate op u accepted result = .ok r') :
    ∃ objects rows, r' = { r with objects := objects, stackRows := rows } ∧
      r.objects.Extends objects ∧ (r.objects.Honest → objects.Honest) ∧
      r.objects.NoCheckpoints objects ∧ (∀ op', op' ≠ op → rows.get? op' = r.stackRows.get? op') ∧
      (r.stackRows.get? op = none → r'.sourceIn op = u.source) ∧
      (u.source ≠ none → r'.resolutionIn op = .ok u.resolution) := by
  unfold bindUpdate at hok
  cases hsource : u.source with
  | none =>
      rw [hsource] at hok
      obtain rfl := Except.ok.inj hok
      refine ⟨r.objects, r.stackRows, rfl, .refl _, fun h => h, fun _ _ h => h, fun _ _ => rfl, ?_, ?_⟩
      · intro hnone
        unfold sourceIn
        rw [hnone]
        rfl
      · exact fun hne => absurd rfl hne
  | some source =>
      rw [hsource] at hok
      obtain ⟨e, _, h₁⟩ := except_bind_eq_ok.mp hok
      unfold recordIn at h₁
      obtain ⟨⟨id, objects⟩, hinsert, h₂⟩ := except_bind_eq_ok.mp h₁
      obtain rfl := Except.ok.inj h₂
      refine ⟨objects, _, rfl, Objects.extends_of_insert hinsert, fun h => h.of_insert hinsert,
        Objects.noCheckpoints_of_insert hinsert (by simp [Object.kind]), ?_, ?_, ?_⟩
      · intro op' hne
        exact (SortedMap.get?_insert ..).trans (if_neg (Ne.symm hne))
      · intro _
        unfold sourceIn
        simp
      · intro _
        have hread := Objects.readBlob_of_insert hinsert
        unfold resolutionIn
        simp only [SortedMap.get?_insert, if_true]
        rw [except_bind_of_ok hread, storedBinding, Encoding.storedResolution_bytes]
        rfl

/-- An update answers a recorded operation, or records a new one. -/
theorem of_updateIn {op : OperationId} {u : Update Id} {outcome : LayerUpdate Id}
    (hok : r.updateIn op u = .ok (outcome, r')) :
    (r' = r ∧ ∃ prior, r.layerAttempts.get? op = some prior ∧ ¬ u.Differs prior (r.sourceIn op) ∧
      r.resolutionIn op = .ok u.resolution ∧ r.layerOutcome op = .ok outcome) ∨
    ∃ revision current accepted result, Recorded r op u outcome revision current accepted result r' := by
  unfold updateIn at hok
  cases hprior : r.layerAttempts.get? op with
  | some prior =>
      rw [hprior] at hok
      obtain ⟨_, hsame, h₁⟩ := except_bind_eq_ok.mp hok
      obtain ⟨resolution, hres, h₂⟩ := except_bind_eq_ok.mp h₁
      obtain ⟨_, hresolution, h₃⟩ := except_bind_eq_ok.mp h₂
      obtain ⟨outcome', hout, h₄⟩ := except_bind_eq_ok.mp h₃
      obtain ⟨rfl, rfl⟩ := Prod.mk.inj (Except.ok.inj h₄)
      rw [refuse_eq_ok] at hsame
      rw [refuse_eq_ok, not_not] at hresolution
      subst hresolution
      exact Or.inl ⟨rfl, prior, rfl, hsame, hres, hout⟩
  | none =>
      rw [hprior] at hok
      obtain ⟨⟨revision, current⟩, hlatest, h₁⟩ := except_bind_eq_ok.mp hok
      obtain ⟨result, hresult, h₂⟩ := except_bind_eq_ok.mp h₁
      obtain ⟨r₂, hbind, h₃⟩ := except_bind_eq_ok.mp h₂
      obtain ⟨outcome', hout, h₄⟩ := except_bind_eq_ok.mp h₃
      obtain ⟨rfl, rfl⟩ := Prod.mk.inj (Except.ok.inj h₄)
      obtain ⟨hadvanced, hroom⟩ := updateResult_eq_ok.mp hresult
      have hatt := attempted r op u (decide (revision = u.expected.revision) && !current.discarded)
        result _ rfl
      obtain ⟨objects, rows, rfl, hext, hhonest, hkept, hrows, hsource, hresolution⟩ :=
        of_bindUpdate hbind
      refine Or.inr ⟨revision, current, _, result, hprior, hlatest, ?_, hadvanced, hroom, ?_, ?_, ?_, ?_,
        hatt.events, hatt.layerPaths, hatt.blame, ?_, hout⟩
      · simp
      · have honly := hatt.only
        exact ⟨honly.identity, honly.objects.trans hext, fun h => hhonest (honly.honest h),
          honly.versions, honly.changes, honly.attempts, honly.publications⟩
      · exact hatt.layerAttempts
      · intro op' hne
        rw [← hatt.stackRows]
        exact hrows op' hne
      · refine ⟨fun hnone => hsource ?_, hresolution⟩
        rw [← hatt.stackRows] at hnone
        exact hnone
      · show r.objects.NoCheckpoints objects
        rw [← hatt.objects]
        exact hkept

/-- What a recorded outcome that reads back has been checked for. -/
structure Verified (r : Repository Id) (op : OperationId) (outcome : LayerUpdate Id)
    (a : LayerAttempt Id) (before after : Event Id) (candidate base : LayerCheckpoint Id) : Prop where
  attempt : r.layerAttempts.get? op = some a
  expected : (r.events a.layer).get? a.expected = some before
  result : (r.events a.layer).get? a.result = some after
  checkpoint : r.checkpointIn a.checkpoint = .ok candidate
  reads : r.checkpointIn before.checkpoint = .ok base
  live : before.discarded = false
  based : base.base = candidate.base
  discard : a.discard = true → candidate.id = before.checkpoint
  update : r.attemptUpdate op a candidate.id after = .ok outcome

theorem of_layerOutcome {op : OperationId} {outcome : LayerUpdate Id}
    (hok : r.layerOutcome op = .ok outcome) :
    ∃ a before after candidate base, Verified r op outcome a before after candidate base := by
  unfold layerOutcome layerOutcomeWith at hok
  cases ha : r.layerAttempts.get? op with
  | none =>
      rw [ha] at hok
      cases hok
  | some a =>
      rw [ha] at hok
      obtain ⟨before, hbefore, h₁⟩ := except_bind_eq_ok.mp hok
      obtain ⟨after, hafter, h₂⟩ := except_bind_eq_ok.mp h₁
      obtain ⟨candidate, hcandidate, h₃⟩ := except_bind_eq_ok.mp h₂
      obtain ⟨base, hbase, h₄⟩ := except_bind_eq_ok.mp h₃
      obtain ⟨_, hbinding, h₅⟩ := except_bind_eq_ok.mp h₄
      obtain ⟨_, _, h₆⟩ := except_bind_eq_ok.mp h₅
      obtain ⟨_, _, h₇⟩ := except_bind_eq_ok.mp h₆
      obtain ⟨_, _, h₈⟩ := except_bind_eq_ok.mp h₇
      obtain ⟨outcome', hupdate, h₉⟩ := except_bind_eq_ok.mp h₈
      have hsame : outcome' = outcome := by
        cases hsource : r.sourceIn op with
        | none =>
            rw [hsource] at h₉
            exact Except.ok.inj h₉
        | some source =>
            rw [hsource] at h₉
            obtain ⟨_, _, h₁₀⟩ := except_bind_eq_ok.mp h₉
            obtain ⟨_, _, hpure⟩ := except_bind_eq_ok.mp h₁₀
            exact Except.ok.inj hpure
      subst hsame
      simp only [refuse_eq_ok, not_or, not_and, not_not, Bool.not_eq_true] at hbinding
      obtain ⟨hlive, hbased, hdiscard⟩ := hbinding
      exact ⟨a, before, after, candidate, base, ha, eventIn_eq_ok.mp hbefore, eventIn_eq_ok.mp hafter,
        hcandidate, hbase, hlive, hbased, hdiscard, hupdate⟩

section recorded
variable {op : OperationId} {u : Update Id} {outcome : LayerUpdate Id} {revision result : ℕ}
  {current : Event Id} {accepted : Bool}

/-- Recording an operation on a Layer that is not published leads to a later state. -/
theorem Recorded.later (h : Recorded r op u outcome revision current accepted result r')
    (hopen : r.successOf u.expected.layer = none) : Later r r' := by
  obtain ⟨_, hmax⟩ := latestIn_eq_ok.mp h.latest
  apply h.only.later
  · intro layer n e he
    rw [h.events]
    by_cases hacc : accepted = true ∧ u.expected.layer = layer
    · obtain ⟨hacc', rfl⟩ := hacc
      have hle := hmax n e he
      have hresult := h.advanced
      rw [if_pos hacc'] at hresult
      rw [if_pos ⟨hacc', rfl⟩, SortedMap.get?_insert, if_neg (by omega)]
      exact he
    · rwa [if_neg hacc]
  · intro op' a ha
    have hne : op' ≠ op := by
      rintro rfl
      rw [h.fresh] at ha
      cases ha
    refine ⟨?_, h.stackRows op' hne⟩
    rw [h.layerAttempts, SortedMap.get?_insert, if_neg (Ne.symm hne)]
    exact ha
  · intro layer
    by_cases hacc : accepted = true ∧ u.expected.layer = layer
    · obtain ⟨_, rfl⟩ := hacc
      exact Or.inr hopen
    · refine Or.inl ?_
      rw [h.events, if_neg hacc]

/-- The Layer of an accepted operation has the history with the new event. -/
theorem Recorded.history (h : Recorded r op u outcome revision current accepted result r')
    (hs : Sound r S) (hl : Later r r') (hacc : accepted = true) : History r' S u.expected.layer := by
  obtain ⟨hcurrent, hmax⟩ := latestIn_eq_ok.mp h.latest
  obtain ⟨hrevision, hlive⟩ := h.decided.mp hacc
  have hold := hs.history u.expected.layer
  have hc' : Chain r' S := h.only.chain hs.chain
  have hresult : result = revision + 1 := by rw [h.advanced, if_pos hacc]
  subst hresult
  -- An event of the Layer is the new one, or one before it.
  have hevent : ∀ n e, (r'.events u.expected.layer).get? n = some e →
      (n = revision + 1 ∧ e = ⟨u.candidate.id, u.discard, some op⟩) ∨
      (n ≤ revision ∧ (r.events u.expected.layer).get? n = some e) := by
    intro n e he
    rw [h.events, if_pos ⟨hacc, rfl⟩, SortedMap.get?_insert] at he
    by_cases hn : revision + 1 = n
    · rw [if_pos hn] at he
      exact Or.inl ⟨hn.symm, (Option.some.inj he).symm⟩
    · rw [if_neg hn] at he
      exact Or.inr ⟨hmax n e he, he⟩
  have hnew : (r'.events u.expected.layer).get? (revision + 1) =
      some ⟨u.candidate.id, u.discard, some op⟩ := by
    rw [h.events, if_pos ⟨hacc, rfl⟩, SortedMap.get?_insert, if_pos rfl]
  have hattempt : r'.layerAttempts.get? op = some (u.attempt accepted (revision + 1)) := by
    rw [h.layerAttempts, SortedMap.get?_insert, if_pos rfl]
  obtain ⟨base, hbase⟩ := hold.based
  refine ⟨?_, ?_, ?_, ?_, ?_, ⟨base, ?_⟩⟩
  · intro n m e he hle
    by_cases hn : n = revision + 1
    · exact ⟨_, hn ▸ hnew⟩
    · have hm : n ≤ revision := by
        rcases hevent m e he with ⟨hm, _⟩ | ⟨hm, _⟩ <;> omega
      obtain ⟨e', he'⟩ := hold.contiguous n revision current hcurrent hm
      exact ⟨e', hl.events _ _ _ he'⟩
  · intro e he
    rcases hevent 0 e he with ⟨hn, _⟩ | ⟨_, he⟩
    · omega
    · exact hold.first e he
  · intro n e he
    rcases hevent (n + 1) e he with ⟨hn, rfl⟩ | ⟨_, he⟩
    · obtain rfl : n = revision := by omega
      exact ⟨op, _, rfl, hattempt, hacc, rfl, hrevision.symm, rfl⟩
    · obtain ⟨op', a, hop, ha, hrest⟩ := hold.later n e he
      exact ⟨op', a, hop, hl.layerAttempts _ _ ha, hrest⟩
  · intro n e e' he he'
    rcases hevent n e he with ⟨hn, _⟩ | ⟨hn, he⟩
    · rcases hevent (n + 1) e' he' with ⟨hn', _⟩ | ⟨hn', _⟩ <;> omega
    · rcases hevent (n + 1) e' he' with ⟨hn', _⟩ | ⟨_, he'⟩
      · obtain rfl : n = revision := by omega
        obtain rfl := Option.some.inj (he.symm.trans hcurrent)
        exact hlive
      · exact hold.live n e e' he he'
  · intro n e he
    rcases hevent n e he with ⟨rfl, _⟩ | ⟨_, he⟩
    · exact h.room hacc
    · exact hold.small n e he
  · intro n e he
    rcases hevent n e he with ⟨_, rfl⟩ | ⟨_, he⟩
    · -- The outcome was read back, so the new checkpoint has the base of the one before.
      obtain ⟨a, before, after, candidate, below, hv⟩ := of_layerOutcome h.outcome
      obtain rfl := Option.some.inj (hattempt.symm.trans hv.attempt)
      have hbefore := hv.expected
      rw [show (u.attempt accepted (revision + 1)).expected = revision from hrevision.symm] at hbefore
      obtain rfl := Option.some.inj ((hl.events _ _ _ hcurrent).symm.trans hbefore)
      obtain ⟨checkpoint, hf, hb⟩ := hbase revision current hcurrent
      have hread := (checkpointIn_eq_ok hc').mpr (hf.later hl hs.chain hc')
      obtain rfl := Except.ok.inj (hread.symm.trans hv.reads)
      exact ⟨candidate, (checkpointIn_eq_ok hc').mp hv.checkpoint, hv.based.symm.trans hb⟩
    · obtain ⟨checkpoint, hf, hb⟩ := hbase n e he
      exact ⟨checkpoint, hf.later hl hs.chain hc', hb⟩

/-- Recording an operation keeps a repository sound. -/
theorem Recorded.sound (h : Recorded r op u outcome revision current accepted result r')
    (hs : Sound r S) (hl : Later r r') : Sound r' S := by
  apply h.only.sound hs hl
  · intro layer
    by_cases hacc : accepted = true ∧ u.expected.layer = layer
    · obtain ⟨hacc', rfl⟩ := hacc
      exact Or.inr (h.history hs hl hacc')
    · refine Or.inl ?_
      rw [h.events, if_neg hacc]
  · intro op' a ha
    rw [h.layerAttempts, SortedMap.get?_insert] at ha
    by_cases hop : op = op'
    · subst hop
      exact Or.inr ⟨outcome, h.outcome⟩
    · rw [if_neg hop] at ha
      exact Or.inl ha
  · intro op' row hrow
    by_cases hop : op' = op
    · subst hop
      refine Or.inr ⟨u.attempt accepted result, ?_⟩
      rw [h.layerAttempts, SortedMap.get?_insert, if_pos rfl]
    · rw [h.stackRows op' hop] at hrow
      exact Or.inl hrow

end recorded

/-! ### Entry points -/

omit [Encoding Id] in
/-- A head token names the live event it says. -/
theorem verifyHead_eq_ok {head : LayerHead Id} :
    r.verifyHead head = .ok () ↔ head.repository = r.identity ∧ head.revision < REVISIONS ∧
      ∃ e, (r.events head.layer).get? head.revision = some e ∧ e.discarded = false ∧
        e.checkpoint = head.checkpoint := by
  unfold verifyHead
  simp only [except_bind_eq_ok, refuse_eq_ok, eventIn_eq_ok, not_or, not_not, not_le,
    Bool.not_eq_true]
  constructor
  · rintro ⟨_, hid, _, hlt, e, he, hlive, hsame⟩
    exact ⟨hid.symm, hlt, e, he, hlive, hsame⟩
  · rintro ⟨hid, hlt, e, he, hlive, hsame⟩
    exact ⟨(), hid.symm, (), hlt, e, he, hlive, hsame⟩

/-- A new operation is refused on a published Layer. -/
theorem of_refusePublished (hs : Sound r S) {op : OperationId} {layer : LayerId}
    (hok : r.refusePublished op layer = .ok ()) (hfresh : r.layerAttempts.get? op = none) :
    r.successOf layer = none := by
  unfold refusePublished at hok
  rw [hfresh] at hok
  cases hfind : r.successOf layer with
  | none => rfl
  | some found =>
      obtain ⟨op', row⟩ := found
      have hp := List.find?_some hfind
      simp only [Bool.and_eq_true, decide_eq_true_eq] at hp
      have hrow := SortedMap.get?_eq_some.mpr (List.mem_of_find?_eq_some hfind)
      obtain ⟨rfl, htag⟩ := hp
      obtain ⟨head, version, _, hstate⟩ := hs.publishedStateIn_of_success hrow htag
      simp only at hok
      rw [except_bind_of_ok hstate] at hok
      cases hok

/-- What the operations on a Layer's head lead to. -/
theorem update_sound (hs : Sound r S) {op : OperationId} {u : Update Id} {outcome : LayerUpdate Id}
    {r₀ : Repository Id} {objects : Objects Id} (hr₀ : r₀ = { r with objects := objects })
    (hs₀ : Later r r₀ ∧ Sound r₀ S) (hopen : r.refusePublished op u.expected.layer = .ok ())
    (hok : r₀.updateIn op u = .ok (outcome, r')) : Later r r' ∧ Sound r' S := by
  rcases of_updateIn hok with ⟨rfl, _⟩ | ⟨revision, current, accepted, result, hrec⟩
  · exact hs₀
  · have hfresh : r.layerAttempts.get? op = none := by
      have hf := hrec.fresh
      rw [hr₀] at hf
      exact hf
    have hnone : r₀.successOf u.expected.layer = none := by
      rw [hr₀]
      exact of_refusePublished hs hopen hfresh
    have hl := hrec.later hnone
    exact ⟨hs₀.1.trans hl, hrec.sound hs₀.2 hl⟩

theorem captureLayer_sound (hs : Sound r S) {op : OperationId} {expected : LayerHead Id}
    {changes : SparseChanges Id} {provenance : Option Provenance} {outcome : LayerUpdate Id}
    (hok : r.captureLayer op expected changes provenance = .ok (outcome, r')) :
    Later r r' ∧ Sound r' S := by
  unfold captureLayer at hok
  obtain ⟨_, _, h₁⟩ := except_bind_eq_ok.mp hok
  obtain ⟨_, hopen, h₂⟩ := except_bind_eq_ok.mp h₁
  obtain ⟨before, _, h₃⟩ := except_bind_eq_ok.mp h₂
  obtain ⟨⟨candidate, r₀⟩, hprep, h₄⟩ := except_bind_eq_ok.mp h₃
  obtain ⟨objects, hr₀, hp, _⟩ := of_prepareCheckpoint hprep
  exact update_sound hs hr₀ (hr₀ ▸ hp.sound hs) hopen h₄

theorem commitStack_sound (hs : Sound r S) {op : OperationId} {expected : LayerHead Id} {source : Id}
    {changes : SparseChanges Id} {resolution : Option Id} {provenance : Option Provenance}
    {outcome : LayerUpdate Id}
    (hok : r.commitStack op expected source changes resolution provenance = .ok (outcome, r')) :
    Later r r' ∧ Sound r' S := by
  unfold commitStack at hok
  obtain ⟨_, _, h₁⟩ := except_bind_eq_ok.mp hok
  obtain ⟨_, hopen, h₂⟩ := except_bind_eq_ok.mp h₁
  obtain ⟨_, _, h₃⟩ := except_bind_eq_ok.mp h₂
  obtain ⟨before, _, h₄⟩ := except_bind_eq_ok.mp h₃
  obtain ⟨⟨candidate, r₀⟩, hprep, h₅⟩ := except_bind_eq_ok.mp h₄
  obtain ⟨objects, hr₀, hp, _⟩ := of_prepareCheckpoint hprep
  exact update_sound hs hr₀ (hr₀ ▸ hp.sound hs) hopen h₅

theorem discardLayer_sound (hs : Sound r S) {op : OperationId} {expected : LayerHead Id}
    {outcome : LayerUpdate Id} (hok : r.discardLayer op expected = .ok (outcome, r')) :
    Later r r' ∧ Sound r' S := by
  unfold discardLayer at hok
  obtain ⟨_, _, h₁⟩ := except_bind_eq_ok.mp hok
  obtain ⟨_, hopen, h₂⟩ := except_bind_eq_ok.mp h₁
  have hr : r = { r with objects := r.objects } := rfl
  exact update_sound hs hr ⟨.refl r, hs⟩ hopen h₂

/-- Creating a Layer at a frozen checkpoint. -/
theorem createIn_sound (hs : Sound r S) {layer : LayerId} {candidate : LayerCandidate Id}
    {checkpoint : LayerCheckpoint Id} {head : LayerHead Id} (hf : Frozen r S candidate.id checkpoint)
    (hok : r.createIn layer candidate = .ok (head, r')) : Later r r' ∧ Sound r' S := by
  obtain ⟨_, ⟨rfl, _⟩ | ⟨hempty, rfl⟩⟩ := of_createIn hok
  · exact ⟨.refl _, hs⟩
  · exact created_sound hs hempty hf

theorem cloneLayer_sound (hs : Sound r S) {layer : LayerId} {checkpoint : Id} {head : LayerHead Id}
    (hok : r.cloneLayer layer checkpoint = .ok (head, r')) : Later r r' ∧ Sound r' S := by
  unfold cloneLayer at hok
  obtain ⟨frozen, hfrozen, h₁⟩ := except_bind_eq_ok.mp hok
  exact createIn_sound hs ((checkpointIn_eq_ok hs.chain).mp hfrozen) h₁

/-- A prepared checkpoint without provenance is frozen. -/
theorem PreparedAs.frozen (hs : Sound r S) {base : LayerBase Id} {changes : SparseChanges Id}
    {sources : List Id} {candidate : LayerCandidate Id} (hbase : r.validateBase base = .ok ())
    (hnormal : r.normalizeIn base.version changes = .ok candidate.changes)
    {objects : Objects Id} (hp : PreparedAs r base sources candidate objects)
    (hsources : sources.IsChain (· < ·)) (hprov : candidate.provenance = none) :
    Frozen { r with objects := objects } S candidate.id
      ⟨candidate.id, base, candidate.changes, sources, candidate.provenance⟩ := by
  obtain ⟨hrepo, v, hv, hworld⟩ := (validateBase_eq_ok hs.chain).mp hbase
  obtain ⟨hvalid, _, hfree, hflat⟩ := (normalizeIn_eq_ok hs.chain hv).mp hnormal
  obtain ⟨hlt, _⟩ := List.getElem?_eq_some_iff.mp hv
  have hover : (S base.version).flat.over candidate.changes.flat = (S base.version).flat.over changes.flat := by
    rw [hflat, Flat.over_diff]
  refine ⟨rfl, hp.stored, ?_, hrepo, ⟨v, hv, hworld⟩, ?_, ⟨?_, ?_⟩, hsources, ?_⟩
  · exact Nat.le_of_lt_succ (hlt.trans_le hs.bounded)
  · intro p e hpe
    rw [hflat, ← WorldIndex.filter_eq_diff, Option.filter_eq_some_iff] at hpe
    exact hp.keeps.validateEntry e _ (hvalid p e hpe.1)
  · rw [hover]
    exact hflat
  · rw [hover]
    exact hfree
  · rw [hprov]
    rfl

/-- The initial checkpoint of a Layer is frozen. -/
theorem Sound.prepareInitial (hs : Sound r S) {base : LayerBase Id} {candidate : LayerCandidate Id}
    (hok : r.prepareCheckpoint base SparseChanges.empty [] none = .ok (candidate, r')) :
    ∃ objects, r' = { r with objects := objects } ∧ PreparedAs r base [] candidate objects ∧
      Frozen { r with objects := objects } S candidate.id
        ⟨candidate.id, base, candidate.changes, [], candidate.provenance⟩ := by
  have hprov := (ids_of_prepareCheckpoint hok).1
  obtain ⟨objects, rfl, hp, hbase, hnormal⟩ := of_prepareCheckpoint hok
  exact ⟨objects, rfl, hp, hp.frozen hs hbase hnormal List.IsChain.nil hprov⟩

theorem createLayer_sound (hs : Sound r S) {layer : LayerId} {base : LayerBase Id} {head : LayerHead Id}
    (hok : r.createLayer layer base = .ok (head, r')) : Later r r' ∧ Sound r' S := by
  unfold createLayer at hok
  obtain ⟨⟨candidate, r₀⟩, hprep, h₁⟩ := except_bind_eq_ok.mp hok
  obtain ⟨objects, rfl, hp, hf⟩ := hs.prepareInitial hprep
  obtain ⟨hl₀, hs₀⟩ := hp.sound hs
  obtain ⟨hl, hs'⟩ := createIn_sound hs₀ hf h₁
  exact ⟨hl₀.trans hl, hs'⟩

end Repository

end Javelin
