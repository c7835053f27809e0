import Javelin.IndexChecks

/-! # What goes through

The other direction of the inversion lemmas: on a sound repository, creating a Layer and publishing
an active one go through whenever their input allows it.  `prepareIn_of_active` reduces preparing to
composing, `exists_commitIn` commits a plan that is up to date, and `exists_publish` puts both
together. -/

namespace Javelin

open KeyedList

variable {Id : Type} [LinearOrder Id] [Encoding Id]

namespace Repository
variable {r r' : Repository Id} {S : VersionNumber → Manifest Id}

/-! ### Checkpoints and new Layers -/

theorem exists_storeProvenance {objects : Objects Id} (hh : objects.Honest)
    (provenance : Option Provenance) : ∃ stored, objects.storeProvenance provenance = .ok stored ∧
      stored.2.Honest := by
  cases provenance with
  | none => exact ⟨(none, objects), rfl, hh⟩
  | some p =>
      have hinsert := hh.insert_eq (.blob (provenanceBytes Id p))
      refine ⟨(some (objectId (.blob (provenanceBytes Id p))), _), ?_, hh.of_insert hinsert⟩
      show (objects.insert (.blob (provenanceBytes Id p)) >>= fun _ => _) = _
      rw [except_bind_of_ok hinsert]
      rfl

/-- A checkpoint is prepared when its base is valid and its changes normalize. -/
theorem exists_prepareCheckpoint (hc : Chain r S) {base : LayerBase Id}
    {changes normalized : SparseChanges Id} (hbase : r.validateBase base = .ok ())
    (hnormal : r.normalizeIn base.version changes = .ok normalized) (sources : List Id)
    (provenance : Option Provenance) : ∃ candidate r',
      r.prepareCheckpoint base changes sources provenance = .ok (candidate, r') := by
  obtain ⟨⟨blob, objects⟩, hstored, hh⟩ := exists_storeProvenance hc.honest provenance
  have hinsert : objects.insert (.checkpoint ⟨base, normalized, sources, blob⟩) = .ok _ :=
    hh.insert_eq _
  have hok : ∃ b, r.prepareCheckpoint base changes sources provenance = .ok b :=
    exists_bind_eq_ok hbase (exists_bind_eq_ok hnormal (exists_bind_eq_ok hstored
      (exists_bind_eq_ok hinsert ⟨_, rfl⟩)))
  obtain ⟨⟨candidate, r'⟩, hok⟩ := hok
  exact ⟨candidate, r', hok⟩

theorem normalizeIn_empty (hc : Chain r S) {base : VersionNumber} {v : WorldVersion Id}
    (hv : r.versions[base]? = some v) :
    r.normalizeIn base SparseChanges.empty = .ok SparseChanges.empty := by
  rw [normalizeIn_self hc hv]
  have hover : (S base).flat.over (SparseChanges.empty : SparseChanges Id).flat = (S base).flat := by
    funext p
    rfl
  refine ⟨fun p e he => ?_, ⟨?_, ?_⟩⟩
  · cases he
  · rw [hover]
    funext p
    exact (if_pos rfl).symm
  · rw [hover]
    exact (S base).prefixFree

/-- A new Layer without changes, as the only thing that was written. -/
structure Created (r : Repository Id) (layer : LayerId) (base : LayerBase Id) (head : LayerHead Id)
    (r' : Repository Id) : Prop where
  created : r.createLayer layer base = .ok (head, r')
  named : head.layer = layer
  revision : head.revision = 0
  active : r'.layerStateIn layer = .ok (.active head)
  unchanged : ∃ checkpoint, r'.checkpointIn head.checkpoint = .ok checkpoint ∧
    checkpoint.base = base ∧ checkpoint.changes = SparseChanges.empty
  versions : r'.versions = r.versions
  attempts : r'.attempts = r.attempts
  layerAttempts : r'.layerAttempts = r.layerAttempts
  publications : r'.publications = r.publications
  others : ∀ layer', layer ≠ layer' → r'.events layer' = r.events layer'

/-- A Layer without events gets its first head at any frozen checkpoint. -/
theorem exists_createIn (hs : Sound r S) {layer : LayerId} {candidate : LayerCandidate Id}
    {checkpoint : LayerCheckpoint Id} (hf : Frozen r S candidate.id checkpoint)
    (hempty : ∀ n, (r.events layer).get? n = none) : ∃ r',
      r.createIn layer candidate = .ok (⟨r.identity, layer, 0, candidate.id⟩, r') ∧
      r'.layerStateIn layer = .ok (.active ⟨r.identity, layer, 0, candidate.id⟩) ∧
      r'.checkpointIn candidate.id = .ok checkpoint ∧ r'.versions = r.versions ∧ r'.attempts = r.attempts ∧
      r'.layerAttempts = r.layerAttempts ∧ r'.publications = r.publications ∧
      ∀ layer', layer ≠ layer' → r'.events layer' = r.events layer' := by
  have hnone : (r.events layer).toList = [] := by
    rw [List.eq_nil_iff_forall_not_mem]
    rintro ⟨n, e⟩ he
    have hget := SortedMap.get?_eq_some.mpr he
    rw [hempty] at hget
    cases hget
  have hcreated : r.createIn layer candidate = .ok (⟨r.identity, layer, 0, candidate.id⟩,
      (r.putEvent layer 0 ⟨candidate.id, false, none⟩).trackIn layer candidate) := by
    unfold createIn
    rw [if_neg (not_not.mpr hnone)]
    rfl
  have hevents : ∀ layer', ((r.putEvent layer 0 ⟨candidate.id, false, none⟩).trackIn layer
      candidate).events layer' = if layer = layer' then
        (r.events layer').insert 0 ⟨candidate.id, false, none⟩ else r.events layer' :=
    fun _ => events_putEvent
  obtain ⟨hl, hs'⟩ := created_sound hs hempty hf
  refine ⟨_, hcreated, ?_, (checkpointIn_eq_ok hs'.chain).mpr (hf.later hl hs.chain hs'.chain), rfl, rfl, rfl,
    rfl, ?_⟩
  · refine (layerStateIn_of_open ?_).trans (latestEventStateIn_eq_ok.mpr ?_)
    · exact hs.successOf_of_empty hempty
    refine ⟨0, ⟨candidate.id, false, none⟩, latestIn_eq_ok.mpr ?_, rfl⟩
    rw [hevents, if_pos rfl, SortedMap.get?_insert, if_pos rfl]
    refine ⟨rfl, fun m e he => ?_⟩
    rw [SortedMap.get?_insert] at he
    by_cases hm : 0 = m
    · exact hm.symm.le
    · rw [if_neg hm, hempty] at he
      cases he
  · intro layer' hne
    rw [hevents, if_neg hne]

/-- A new Layer is created at any valid base. -/
theorem exists_createLayer (hs : Sound r S) {layer : LayerId} {base : LayerBase Id}
    (hbase : r.validateBase base = .ok ()) (hempty : ∀ n, (r.events layer).get? n = none) :
    ∃ head r', Created r layer base head r' := by
  obtain ⟨_, v, hv, _⟩ := (validateBase_eq_ok hs.chain).mp hbase
  have hnormal := normalizeIn_empty hs.chain hv
  obtain ⟨candidate, r₀, hprep⟩ := exists_prepareCheckpoint hs.chain hbase hnormal [] none
  obtain ⟨_, _, _, _, hchanges⟩ := of_prepareCheckpoint hprep
  obtain ⟨objects, rfl, hp, hf⟩ := hs.prepareInitial hprep
  obtain ⟨_, hs₀⟩ := hp.sound hs
  obtain ⟨r', hcreated, hactive, hread, hversions, hattempts, hlayerAttempts, hpublications, hothers⟩ :=
    exists_createIn hs₀ hf hempty
  refine ⟨⟨r.identity, layer, 0, candidate.id⟩, r', ⟨?_, rfl, rfl, hactive, ⟨_, hread, rfl, ?_⟩, hversions,
    hattempts, hlayerAttempts, hpublications, hothers⟩⟩
  · unfold createLayer
    rw [except_bind_of_ok hprep]
    exact hcreated
  · exact (Except.ok.inj (hnormal.symm.trans hchanges)).symm

theorem exists_cloneLayer (hs : Sound r S) {layer : LayerId} {id : Id} {checkpoint : LayerCheckpoint Id}
    (hread : r.checkpointIn id = .ok checkpoint) (hempty : ∀ n, (r.events layer).get? n = none) : ∃ r',
      r.cloneLayer layer id = .ok (⟨r.identity, layer, 0, id⟩, r') ∧
      r'.layerStateIn layer = .ok (.active ⟨r.identity, layer, 0, id⟩) ∧
      r'.checkpointIn id = .ok checkpoint ∧ r'.versions = r.versions ∧ r'.attempts = r.attempts ∧
      r'.publications = r.publications := by
  obtain ⟨r', hcreated, hactive, hread', hversions, hattempts, _, hpublications, _⟩ :=
    exists_createIn hs (show Frozen r S (⟨id, checkpoint.changes, checkpoint.provenance⟩ : LayerCandidate Id).id
      checkpoint from (checkpointIn_eq_ok hs.chain).mp hread) hempty
  refine ⟨r', ?_, hactive, hread', hversions, hattempts, hpublications⟩
  unfold cloneLayer
  rw [except_bind_of_ok hread]
  exact hcreated

/-! ### Preparing -/

theorem Sound.checkHeadReceipt (hs : Sound r S) (against : WorldVersion Id) :
    r.checkHeadReceipt against = .ok () := by
  unfold Repository.checkHeadReceipt
  cases against.operation with
  | none => rfl
  | some op =>
      simp only
      unfold publication
      cases hrow : r.publications.get? op with
      | none => rfl
      | some row =>
          obtain ⟨receipt, hreceipt⟩ := hs.receipts op row hrow
          simp only
          rw [except_bind_of_ok hreceipt]
          rfl

theorem Sound.checkLayerReceipts (hs : Sound r S) (layer : LayerId) :
    r.checkLayerReceipts layer = .ok () := by
  unfold Repository.checkLayerReceipts
  rw [forM_eq_ok]
  intro e he
  obtain ⟨receipt, hreceipt⟩ := hs.receipts e.1 e.2
    (SortedMap.get?_eq_some.mpr (List.mem_of_mem_filter he))
  rw [except_bind_of_ok hreceipt]
  rfl

/-- The head of an active Layer is a valid token. -/
theorem Sound.verifyHead (hs : Sound r S) {layer : LayerId} {head : LayerHead Id}
    (hactive : r.layerStateIn layer = .ok (.active head)) :
    head.layer = layer ∧ r.verifyHead head = .ok () := by
  obtain ⟨⟨e, hlatest, hlive, hopen⟩, _⟩ := hs.live_of_active hactive
  rw [layerStateIn_of_open hopen] at hactive
  obtain ⟨n, e', hlatest', hstate⟩ := latestEventStateIn_eq_ok.mp hactive
  obtain ⟨hn, rfl⟩ := Prod.mk.inj (Except.ok.inj (hlatest.symm.trans hlatest'))
  unfold Event.state at hstate
  rw [hlive] at hstate
  obtain rfl := LayerState.active.inj hstate
  have he := (latestIn_eq_ok.mp hlatest).1
  exact ⟨rfl, verifyHead_eq_ok.mpr ⟨rfl, (hs.history layer).small _ _ he, e, he, hlive, rfl⟩⟩

/-! ### Capturing -/

/-- Writes to the tables of Layers keep checkpoints as they are. -/
theorem Frozen.of_layersOnly (h : LayersOnly r r') {id : Id} {checkpoint : LayerCheckpoint Id}
    (hf : Frozen r S id checkpoint) : Frozen r' S id checkpoint where
  named := hf.named
  stored := h.objects.readCheckpoint _ _ hf.stored
  small := hf.small
  repository := hf.repository.trans h.identity.symm
  version := by
    rw [h.versions]
    exact hf.version
  contents p e hp := h.objects.validateEntry e _ (hf.contents p e hp)
  exact := hf.exact
  sources := hf.sources
  provenance := by
    have hprov := hf.provenance
    cases hblob : checkpoint.provenance with
    | none => rfl
    | some blob =>
        rw [hblob] at hprov
        exact Stable.bind (h.objects.readProvenance blob).rewrap (fun _ _ => .refl _) _ hprov

/-- The sources that a new head must have. -/
def stackSources (before : List Id) : Option Id → List Id
  | none => before
  | some source => sortDedup (before ++ [source])

omit [Encoding Id] in
theorem isChain_sortDedup (l : List Id) : (sortDedup l).IsChain (· < ·) := by
  have hsorted : (l.mergeSort (fun a b => decide (a ≤ b))).Pairwise (· ≤ ·) := by
    have h : (l.mergeSort (fun a b => decide (a ≤ b))).Pairwise (fun a b => decide (a ≤ b) = true) :=
      List.pairwise_mergeSort (fun a b c => by simpa using le_trans) (fun a b => by simpa using le_total a b) l
    exact h.imp (fun h => of_decide_eq_true h)
  have hle : (sortDedup l).Pairwise (· ≤ ·) := hsorted.sublist (List.dedup_sublist _)
  have hne : (sortDedup l).Pairwise (· ≠ ·) := List.nodup_dedup _
  rw [List.isChain_iff_pairwise]
  exact hle.imp₂ (fun _ _ hle hne => lt_of_le_of_ne hle hne) hne

/-- An accepted attempt that keeps its Layer reads back as applied. -/
theorem layerOutcome_of_accepted (hs : Sound r S) {op : OperationId} {u : Update Id} {revision : ℕ}
    {current : Event Id} (hcurrent : (r.events u.expected.layer).get? revision = some current)
    (hlive : current.discarded = false) (hrevision : u.expected.revision = revision)
    (hkeep : u.discard = false) {before checkpoint : LayerCheckpoint Id}
    (hbefore : Frozen r S current.checkpoint before) (hf : Frozen r S u.candidate.id checkpoint)
    (hbase : before.base = checkpoint.base) (honly : LayersOnly r r')
    (hattempts : r'.layerAttempts = r.layerAttempts.insert op (u.attempt true (revision + 1)))
    (hevents : r'.events u.expected.layer =
      (r.events u.expected.layer).insert (revision + 1) ⟨u.candidate.id, u.discard, some op⟩)
    (hrow : r'.sourceIn op = u.source) (hsources : checkpoint.sources = stackSources before.sources u.source)
    (hbound : ∀ source, u.source = some source → (∃ frozen, Frozen r S source frozen) ∧
      r'.verifyBinding op ⟨r.identity, u.expected.layer, revision, current.checkpoint⟩ source u.candidate.id
        (.applied (.active ⟨r.identity, u.expected.layer, revision + 1, u.candidate.id⟩)) = .ok ()) :
    r'.layerOutcome op =
      .ok (.applied (.active ⟨r.identity, u.expected.layer, revision + 1, u.candidate.id⟩)) := by
  have hc' := honly.chain hs.chain
  have hattempt : r'.layerAttempts.get? op = some ⟨u.expected.layer, revision, u.candidate.id,
      false, u.source.isSome, true, revision + 1⟩ := by
    rw [hattempts, SortedMap.get?_insert, if_pos rfl]
    unfold Update.attempt
    rw [hrevision, hkeep]
  have hevent : r'.eventIn u.expected.layer revision = .ok current := by
    rw [eventIn_eq_ok, hevents, SortedMap.get?_insert, if_neg (Nat.succ_ne_self revision), hcurrent]
  have hevent' : r'.eventIn u.expected.layer (revision + 1) = .ok ⟨u.candidate.id, false, some op⟩ := by
    rw [eventIn_eq_ok, hevents, SortedMap.get?_insert, if_pos rfl, hkeep]
  have hbinding : refuse (current.discarded = true ∨ before.base ≠ checkpoint.base ∨
      (false = true ∧ checkpoint.id ≠ current.checkpoint))
      (corrupt "invalid Layer attempt binding" : Error Id) = .ok () := by
    rw [refuse_eq_ok, hlive, hbase]
    simp
  have hstack : refuse (u.source.isSome ≠ u.source.isSome)
      (corrupt "missing or unexpected Stack binding" : Error Id) = .ok () := by
    rw [refuse_eq_ok]
    simp
  have hancestry : refuse (checkpoint.sources ≠ stackSources before.sources u.source)
      (corrupt "Layer attempt lost or changed Stack ancestry" : Error Id) = .ok () := by
    rw [refuse_eq_ok, not_not]
    exact hsources
  have hread : attemptSources r'.checkpointIn before.sources (⟨u.expected.layer, revision, u.candidate.id,
      false, u.source.isSome, true, revision + 1⟩ : LayerAttempt Id) u.source =
        .ok (stackSources before.sources u.source) := by
    cases hsource : u.source with
    | none => rfl
    | some source =>
        obtain ⟨⟨frozen, hfrozen⟩, _⟩ := hbound source hsource
        have hkept : refuse (false = true) (corrupt "Stack cannot discard" : Error Id) = .ok () :=
          refuse_eq_ok.mpr Bool.false_ne_true
        unfold attemptSources
        simp only
        rw [except_bind_of_ok hkept,
          except_bind_of_ok ((checkpointIn_eq_ok hc').mpr (hfrozen.of_layersOnly honly))]
        rfl
  have hupdate : r'.attemptUpdate op (⟨u.expected.layer, revision, u.candidate.id, false, u.source.isSome,
      true, revision + 1⟩ : LayerAttempt Id) checkpoint.id ⟨u.candidate.id, false, some op⟩ =
        .ok (.applied (.active ⟨r.identity, u.expected.layer, revision + 1, u.candidate.id⟩)) := by
    unfold attemptUpdate Event.state
    simp [hf.named, honly.identity, refuse]
  unfold Repository.layerOutcome layerOutcomeWith
  rw [hattempt, hrow]
  simp only
  rw [except_bind_of_ok hevent, except_bind_of_ok hevent',
    except_bind_of_ok ((checkpointIn_eq_ok hc').mpr (hf.of_layersOnly honly)),
    except_bind_of_ok ((checkpointIn_eq_ok hc').mpr (hbefore.of_layersOnly honly)),
    except_bind_of_ok hbinding, except_bind_of_ok hstack, except_bind_of_ok hread,
    except_bind_of_ok hancestry, except_bind_of_ok hupdate]
  cases hsource : u.source with
  | none => rfl
  | some source =>
      obtain ⟨_, hverified⟩ := hbound source hsource
      have hhead : r'.layerHeadIn u.expected.layer revision =
          .ok ⟨r.identity, u.expected.layer, revision, current.checkpoint⟩ := by
        rw [layerHeadIn_eq_ok, ← honly.identity]
        exact ⟨current, eventIn_eq_ok.mp hevent, hlive, rfl⟩
      simp only
      rw [except_bind_of_ok hhead, hf.named, except_bind_of_ok hverified]
      rfl

/-- A new binding without a resolution is verified. -/
theorem verifyBinding_of_recordIn {binding : StackBinding Id} (hresolution : binding.resolution = none)
    (hok : r.recordIn binding = .ok r') : r'.verifyBinding binding.operation binding.expected binding.source
      binding.candidate binding.outcome = .ok () := by
  unfold recordIn at hok
  obtain ⟨⟨id, objects⟩, hinsert, hpure⟩ := except_bind_eq_ok.mp hok
  obtain rfl := Except.ok.inj hpure
  have hread := Objects.readBlob_of_insert hinsert
  obtain ⟨op, expected, source, candidate, outcome, resolution⟩ := binding
  obtain rfl : resolution = none := hresolution
  unfold verifyBinding
  simp only [SortedMap.get?_insert, if_true]
  have hstored : storedBinding (bindingBytes ⟨op, expected, source, candidate, outcome, none⟩) =
      (.ok none : Except (Error Id) _) := by
    unfold storedBinding
    rw [Encoding.storedResolution_bytes]
    rfl
  have hsame : refuse (bindingBytes ⟨op, expected, source, candidate, outcome, none⟩ ≠
      bindingBytes ⟨op, expected, source, candidate, outcome, none⟩)
      (corrupt "Stack input binding disagrees" : Error Id) = .ok () :=
    refuse_eq_ok.mpr (fun h => h rfl)
  rw [except_bind_of_ok hread, except_bind_of_ok hstored, except_bind_of_ok hsame]
  rfl

/-- An update of the latest event that keeps the Layer is applied. -/
theorem exists_updateIn (hs : Sound r S) {op : OperationId} {u : Update Id} {current : Event Id}
    (hfresh : r.layerAttempts.get? op = none)
    (hlatest : r.latestIn u.expected.layer = .ok (u.expected.revision, current))
    (hexpected : u.expected.repository = r.identity ∧ u.expected.checkpoint = current.checkpoint)
    (hlive : current.discarded = false) (hkeep : u.discard = false) (hresolution : u.resolution = none)
    {before checkpoint : LayerCheckpoint Id} (hbefore : Frozen r S current.checkpoint before)
    (hf : Frozen r S u.candidate.id checkpoint) (hbase : before.base = checkpoint.base)
    (hsources : checkpoint.sources = stackSources before.sources u.source)
    (hstacked : ∀ source, u.source = some source → ∃ frozen, Frozen r S source frozen)
    (hroom : u.expected.revision + 1 < REVISIONS) :
    ∃ r', r.updateIn op u = .ok (.applied (.active
      ⟨r.identity, u.expected.layer, u.expected.revision + 1, u.candidate.id⟩), r') := by
  obtain ⟨⟨identity, layer, revision, head⟩, candidate, discard, source, resolution⟩ := u
  obtain ⟨rfl, rfl⟩ : identity = r.identity ∧ head = current.checkpoint := hexpected
  obtain rfl : discard = false := hkeep
  obtain rfl : resolution = none := hresolution
  obtain ⟨hget, _⟩ := latestIn_eq_ok.mp hlatest
  have hatt := attempted r op ⟨⟨r.identity, layer, revision, current.checkpoint⟩, candidate, false, source, none⟩
    true (revision + 1) _ rfl
  rw [if_pos rfl] at hatt
  let attempts := r.layerAttempts.insert op (Update.attempt
    ⟨⟨r.identity, layer, revision, current.checkpoint⟩, candidate, false, source, none⟩ true (revision + 1))
  obtain ⟨r₁, hr₁⟩ : ∃ r₁, r₁ = ({ r with layerAttempts := attempts } : Repository Id).acceptUpdate op
      ⟨⟨r.identity, layer, revision, current.checkpoint⟩, candidate, false, source, none⟩ (revision + 1) :=
    ⟨_, rfl⟩
  rw [← hr₁] at hatt
  have hevents := hatt.events layer
  rw [if_pos ⟨rfl, rfl⟩] at hevents
  have hnorow : r₁.stackRows.get? op = none := by
    rw [hatt.stackRows]
    cases hrow : r.stackRows.get? op with
    | none => rfl
    | some row =>
        obtain ⟨a, ha⟩ := hs.bindings op row hrow
        rw [hfresh] at ha
        cases ha
  -- the binding of a Stack is stored and verified
  obtain ⟨r', hbind, honly, hattempts, hevents', hrow, hbound⟩ : ∃ r', r₁.bindUpdate op
      ⟨⟨r.identity, layer, revision, current.checkpoint⟩, candidate, false, source, none⟩ true (revision + 1) =
        .ok r' ∧ LayersOnly r r' ∧ r'.layerAttempts = r₁.layerAttempts ∧ r'.events layer = r₁.events layer ∧
      r'.sourceIn op = source ∧ ∀ s, source = some s →
        r'.verifyBinding op ⟨r.identity, layer, revision, current.checkpoint⟩ s candidate.id
          (.applied (.active ⟨r.identity, layer, revision + 1, candidate.id⟩)) = .ok () := by
    cases source with
    | none =>
        refine ⟨r₁, rfl, hatt.only, rfl, rfl, ?_, fun s hs => by cases hs⟩
        unfold sourceIn
        rw [hnorow]
        rfl
    | some source =>
        have hevent : r₁.eventIn layer (revision + 1) = .ok ⟨candidate.id, false, some op⟩ := by
          rw [eventIn_eq_ok, hevents, SortedMap.get?_insert, if_pos rfl]
        have hinsert := (hatt.only.honest hs.chain.honest).insert_eq (.blob (bindingBytes ⟨op,
          ⟨r.identity, layer, revision, current.checkpoint⟩, source, candidate.id,
          .applied (.active ⟨r.identity, layer, revision + 1, candidate.id⟩), none⟩) : Object Id)
        obtain ⟨r', hrecord⟩ : ∃ r', r₁.recordIn ⟨op, ⟨r.identity, layer, revision, current.checkpoint⟩, source,
            candidate.id, .applied (.active ⟨r.identity, layer, revision + 1, candidate.id⟩), none⟩ = .ok r' :=
          exists_bind_eq_ok hinsert ⟨_, rfl⟩
        have hbind : r₁.bindUpdate op ⟨⟨r.identity, layer, revision, current.checkpoint⟩, candidate, false,
            some source, none⟩ true (revision + 1) = .ok r' := by
          unfold bindUpdate
          simp only
          rw [except_bind_of_ok hevent, hatt.only.identity]
          exact hrecord
        obtain ⟨objects, rows, rfl, hext, hhonest, _, _, hsource, _⟩ := of_bindUpdate hbind
        have honly := hatt.only
        refine ⟨_, hbind, ⟨honly.identity, honly.objects.trans hext, fun h => hhonest (honly.honest h),
          honly.versions, honly.changes, honly.attempts, honly.publications⟩, rfl, rfl, hsource hnorow, ?_⟩
        intro s hs
        obtain rfl := Option.some.inj hs
        exact verifyBinding_of_recordIn rfl hrecord
  have hout := layerOutcome_of_accepted (u := ⟨⟨r.identity, layer, revision, current.checkpoint⟩, candidate,
    false, source, none⟩) hs hget hlive rfl rfl hbefore hf hbase honly (hattempts.trans hatt.layerAttempts)
    (hevents'.trans hevents) hrow hsources (fun s hs => ⟨hstacked s hs, hbound s hs⟩)
  have hresult : (updateResult revision true : Except (Error Id) ℕ) = .ok (revision + 1) :=
    updateResult_eq_ok.mpr ⟨rfl, fun _ => hroom⟩
  refine ⟨r', ?_⟩
  unfold updateIn
  rw [hfresh]
  simp only
  rw [except_bind_of_ok hlatest]
  simp only [hlive, decide_true, Bool.not_false, Bool.and_self]
  rw [except_bind_of_ok hresult, if_pos trivial]
  rw [hr₁] at hbind
  exact (except_bind_of_ok hbind).trans (except_bind_of_ok hout)

/-- A new update of an open Layer's latest revision that keeps it makes its candidate the head. -/
theorem active_of_updateIn {op : OperationId} {u : Update Id} {current : Event Id}
    {outcome : LayerUpdate Id} (hfresh : r.layerAttempts.get? op = none)
    (hlatest : r.latestIn u.expected.layer = .ok (u.expected.revision, current))
    (hlive : current.discarded = false) (hopen : r.successOf u.expected.layer = none)
    (hkeep : u.discard = false) (hok : r.updateIn op u = .ok (outcome, r')) :
    LayersOnly r r' ∧ Later r r' ∧ r'.layerStateIn u.expected.layer =
      .ok (.active ⟨r.identity, u.expected.layer, u.expected.revision + 1, u.candidate.id⟩) := by
  cases of_updateIn hok with
  | inl h =>
      obtain ⟨_, prior, hprior, _⟩ := h
      rw [hfresh] at hprior
      cases hprior
  | inr h =>
      obtain ⟨revision, current', accepted, result, hrec⟩ := h
      obtain ⟨rfl, rfl⟩ := Prod.mk.inj (Except.ok.inj (hlatest.symm.trans hrec.latest))
      have haccepted : accepted = true := hrec.decided.mpr ⟨rfl, hlive⟩
      have hresult := hrec.advanced
      rw [if_pos haccepted] at hresult
      subst hresult
      obtain ⟨_, hmax⟩ := latestIn_eq_ok.mp hlatest
      refine ⟨hrec.only, hrec.later hopen, ?_⟩
      have hopen' : r'.successOf u.expected.layer = none := by
        rw [successOf_congr hrec.only.publications]
        exact hopen
      rw [layerStateIn_of_open hopen', latestEventStateIn_eq_ok]
      refine ⟨u.expected.revision + 1, ⟨u.candidate.id, u.discard, some op⟩, ?_, ?_⟩
      · rw [latestIn_eq_ok, hrec.events, if_pos ⟨haccepted, rfl⟩, SortedMap.get?_insert, if_pos rfl]
        refine ⟨rfl, fun m e he => ?_⟩
        rw [SortedMap.get?_insert] at he
        by_cases hm : u.expected.revision + 1 = m
        · exact hm.symm.le
        · rw [if_neg hm] at he
          exact Nat.le_succ_of_le (hmax m e he)
      · unfold Event.state
        rw [hkeep, hrec.only.identity]
        rfl

/-- A head that was replaced by changes over its base, and what that left. -/
structure Replaced (r : Repository Id) (expected : LayerHead Id) (before : LayerCheckpoint Id)
    (normalized : SparseChanges Id) (head : LayerHead Id) (r' : Repository Id) : Prop where
  named : head.layer = expected.layer
  active : r'.layerStateIn head.layer = .ok (.active head)
  changed : ∃ checkpoint, r'.checkpointIn head.checkpoint = .ok checkpoint ∧
    checkpoint.base = before.base ∧ checkpoint.changes = normalized
  versions : r'.versions = r.versions
  attempts : r'.attempts = r.attempts
  publications : r'.publications = r.publications

/-- New changes of an active Layer's head are applied, with or without a source. -/
theorem exists_replaced (hs : Sound r S) {op : OperationId} {expected : LayerHead Id}
    {changes normalized : SparseChanges Id} {before : LayerCheckpoint Id} (source : Option Id)
    (hfresh : r.layerAttempts.get? op = none)
    (hactive : r.layerStateIn expected.layer = .ok (.active expected))
    (hbefore : r.checkpointIn expected.checkpoint = .ok before)
    (hnormal : r.normalizeIn before.base.version changes = .ok normalized)
    (hsource : ∀ s, source = some s → ∃ frozen, r.checkpointIn s = .ok frozen)
    (hroom : expected.revision + 1 < REVISIONS) : ∃ candidate r₀ head r',
      r.verifyHead expected = .ok () ∧ r.refusePublished op expected.layer = .ok () ∧
      r.prepareCheckpoint before.base changes (stackSources before.sources source) none = .ok (candidate, r₀) ∧
      r₀.updateIn op ⟨expected, candidate, false, source, none⟩ = .ok (.applied (.active head), r') ∧
      Replaced r expected before normalized head r' := by
  obtain ⟨⟨e, hlatest, hlive, hopen⟩, e', he', hcheckpoint⟩ := hs.live_of_active hactive
  obtain ⟨hcurrent, _⟩ := latestIn_eq_ok.mp hlatest
  obtain rfl := Option.some.inj (hcurrent.symm.trans he')
  have hf := (checkpointIn_eq_ok hs.chain).mp hbefore
  have hbase := (validateBase_eq_ok hs.chain).mpr ⟨hf.repository, hf.version⟩
  have hascending : (stackSources before.sources source).IsChain (· < ·) := by
    cases source with
    | none => exact hf.sources
    | some s => exact isChain_sortDedup _
  obtain ⟨candidate, r₀, hprep⟩ :=
    exists_prepareCheckpoint hs.chain hbase hnormal (stackSources before.sources source) none
  have hprov := (ids_of_prepareCheckpoint hprep).1
  obtain ⟨objects, rfl, hp, _, hnormal'⟩ := of_prepareCheckpoint hprep
  obtain ⟨hl₀, hs₀⟩ := hp.sound hs
  have hcandidate := hp.frozen hs hbase hnormal' hascending hprov
  have hrefuse : r.refusePublished op expected.layer = .ok () := by
    unfold refusePublished publishedStateIn
    rw [hfresh, hopen]
    rfl
  have hidentity := (verifyHead_eq_ok.mp (hs.verifyHead hactive).2).1
  have hbefore₀ : Frozen { r with objects := objects } S e.checkpoint before := by
    rw [hcheckpoint]
    exact hf.later hl₀ hs.chain hs₀.chain
  have hsource₀ : ∀ s, source = some s → ∃ frozen, Frozen { r with objects := objects } S s frozen := by
    intro s hs'
    obtain ⟨frozen, hread⟩ := hsource s hs'
    exact ⟨frozen, ((checkpointIn_eq_ok hs.chain).mp hread).later hl₀ hs.chain hs₀.chain⟩
  obtain ⟨r', hok⟩ : ∃ r', ({ r with objects := objects } : Repository Id).updateIn op
      ⟨expected, candidate, false, source, none⟩ = .ok (.applied (.active
        ⟨r.identity, expected.layer, expected.revision + 1, candidate.id⟩), r') :=
    exists_updateIn hs₀ hfresh hlatest ⟨hidentity, hcheckpoint.symm⟩ hlive rfl rfl hbefore₀ hcandidate rfl rfl
      hsource₀ hroom
  have hfresh₀ : ({ r with objects := objects } : Repository Id).layerAttempts.get? op = none := hfresh
  obtain ⟨honly, _, hactive'⟩ :=
    active_of_updateIn (u := ⟨expected, candidate, false, source, none⟩) hfresh₀ hlatest hlive hopen rfl hok
  have hread := (checkpointIn_eq_ok (honly.chain hs₀.chain)).mpr (hcandidate.of_layersOnly honly)
  have hsame := (Except.ok.inj (hnormal.symm.trans hnormal')).symm
  exact ⟨candidate, _, _, r', (hs.verifyHead hactive).2, hrefuse, hprep, hok, rfl, hactive',
    ⟨_, hread, rfl, hsame⟩, honly.versions, honly.attempts, honly.publications⟩

/-- A capture that was applied, and what it left. -/
structure Captured (r : Repository Id) (op : OperationId) (expected : LayerHead Id)
    (before : LayerCheckpoint Id) (changes normalized : SparseChanges Id) (head : LayerHead Id)
    (r' : Repository Id) : Prop extends Replaced r expected before normalized head r' where
  captured : r.captureLayer op expected changes none = .ok (.applied (.active head), r')

/-- A capture of an active Layer's head is applied. -/
theorem exists_captureLayer (hs : Sound r S) {op : OperationId} {expected : LayerHead Id}
    {changes normalized : SparseChanges Id} {before : LayerCheckpoint Id}
    (hfresh : r.layerAttempts.get? op = none)
    (hactive : r.layerStateIn expected.layer = .ok (.active expected))
    (hbefore : r.checkpointIn expected.checkpoint = .ok before)
    (hnormal : r.normalizeIn before.base.version changes = .ok normalized)
    (hroom : expected.revision + 1 < REVISIONS) : ∃ head r',
      Captured r op expected before changes normalized head r' := by
  obtain ⟨candidate, r₀, head, r', hverify, hrefuse, hprep, hok, hreplaced⟩ :=
    exists_replaced hs none hfresh hactive hbefore hnormal (fun s hs => by cases hs) hroom
  refine ⟨head, r', hreplaced, ?_⟩
  unfold captureLayer
  rw [except_bind_of_ok hverify, except_bind_of_ok hrefuse, except_bind_of_ok hbefore]
  exact (except_bind_of_ok hprep).trans hok

/-- A Stack into an active Layer's head is applied. -/
theorem exists_commitStack (hs : Sound r S) {op : OperationId} {expected : LayerHead Id} {source : Id}
    {changes normalized : SparseChanges Id} {before frozen : LayerCheckpoint Id}
    (hfresh : r.layerAttempts.get? op = none)
    (hactive : r.layerStateIn expected.layer = .ok (.active expected))
    (hbefore : r.checkpointIn expected.checkpoint = .ok before)
    (hnormal : r.normalizeIn before.base.version changes = .ok normalized)
    (hsource : r.checkpointIn source = .ok frozen) (hroom : expected.revision + 1 < REVISIONS) :
    ∃ head r', r.commitStack op expected source changes none none = .ok (.applied (.active head), r') ∧
      Replaced r expected before normalized head r' := by
  obtain ⟨candidate, r₀, head, r', hverify, hrefuse, hprep, hok, hreplaced⟩ :=
    exists_replaced hs (some source) hfresh hactive hbefore hnormal
      (fun s hs => Option.some.inj hs ▸ ⟨frozen, hsource⟩) hroom
  refine ⟨head, r', ?_, hreplaced⟩
  unfold commitStack
  rw [except_bind_of_ok hverify, except_bind_of_ok hrefuse, except_bind_of_ok hsource,
    except_bind_of_ok hbefore]
  exact (except_bind_of_ok hprep).trans hok

section calls
variable {call : PublishCall Id} {plan : Plan Id} {guard : Guard Id} {head : WorldVersion Id}
  {warnings : List PublishWarning}

/-- Preparing a new operation on an active Layer is composing its delta with the head. -/
theorem prepareIn_of_active (hs : Sound r S) (hunused : r.publications.get? call.operation = none)
    (hunowned : r.attempts.get? call.operation = none)
    (hactive : r.layerStateIn call.expected.layer = .ok (.active call.expected))
    (hwarnings : r.warningsIn call.attribution = .ok warnings)
    (hoverride : checkOverride call.attribution = (.ok () : Except (Error Id) Unit))
    (hhead : r.versions.getLast? = some head) :
    r.prepareIn call = r.composeIn call.expected head >>= fun composed =>
      .ok (.advance ⟨head, .active call.expected, warnings, some composed⟩) := by
  have hpub : r.publication call.operation = .ok none := by
    unfold publication
    rw [hunused]
    rfl
  have hfresh : refuse (r.attempts.get? call.operation ≠ none)
      (.operationIdReused call.operation : Error Id) = .ok () := by
    rw [refuse_eq_ok, not_not]
    exact hunowned
  unfold prepareIn
  rw [except_bind_of_ok hpub]
  simp only
  unfold planIn
  rw [except_bind_of_ok hfresh, except_bind_of_ok (hs.verifyHead hactive).2,
    except_bind_of_ok hwarnings, except_bind_of_ok hoverride,
    except_bind_of_ok (hs.chain.headIn_eq_ok.mpr hhead), except_bind_of_ok (hs.checkHeadReceipt head),
    except_bind_of_ok (hs.checkLayerReceipts call.expected.layer), except_bind_of_ok hactive]
  unfold composeActive
  rw [if_pos rfl]
  cases r.composeIn call.expected head with
  | error e => rfl
  | ok composed => rfl

/-! ### Committing -/

theorem Objects.Honest.exists_insertChunks {objects : Objects Id} (hh : objects.Honest)
    (chunks : List (Id × Chunk Id)) : ∃ objects', insertChunks objects chunks = .ok objects' := by
  induction chunks generalizing objects with
  | nil => exact ⟨objects, rfl⟩
  | cons e chunks ih =>
      have hinsert := hh.insert_eq (.tree e.2)
      obtain ⟨objects', hok⟩ := ih (hh.of_insert hinsert)
      refine ⟨objects', ?_⟩
      unfold insertChunks at hok ⊢
      rw [List.foldlM_cons, except_bind_of_ok hinsert]
      exact hok

omit [LinearOrder Id] [Encoding Id] in
/-- Blame is recorded when every path is tracked. -/
theorem exists_blameRows {tracked : SortedMap RepoPath (Tracked Id)} {l : List RepoPath}
    (h : ∀ p ∈ l, tracked.get? p ≠ none) (rows₀ : SortedMap RepoPath (BlameRow Id)) :
    ∃ rows, l.foldlM (blameRow tracked) rows₀ = (.ok rows : Except (Error Id) _) := by
  induction l generalizing rows₀ with
  | nil => exact ⟨rows₀, rfl⟩
  | cons p l ih =>
      rw [List.forall_mem_cons] at h
      obtain ⟨t, ht⟩ := Option.ne_none_iff_exists'.mp h.1
      obtain ⟨rows, hok⟩ := ih h.2 (rows₀.insert p ⟨t.checkpoint, t.provenance⟩)
      refine ⟨rows, ?_⟩
      have hrow : blameRow tracked rows₀ p =
          (.ok (rows₀.insert p ⟨t.checkpoint, t.provenance⟩) : Except (Error Id) _) := by
        unfold blameRow
        rw [ht]
        rfl
      rw [List.foldlM_cons, except_bind_of_ok hrow, hok]

/-- A composed plan's paths are all tracked. -/
theorem Fits.keys_tracked (hfits : Fits r S call plan) (hi : Indexed r) (hs : Sound r S)
    {composition : Composition Id} (hcomposed : plan.composed = some (.inr composition)) :
    ∀ p ∈ composition.changes.entries.keys, (r.trackedIn call.expected.layer).get? p ≠ none := by
  obtain ⟨hatt, _⟩ := hfits.tracked hi hs hcomposed
  obtain ⟨e, checkpoint, he, hread, hkeys⟩ := get?_attributionIn hatt
  obtain ⟨_, checkpoint', hf', hcomp⟩ := hfits.composition composition hcomposed
  obtain ⟨e', he', _, hexpected⟩ := layerHeadIn_eq_ok.mp hfits.expected
  obtain rfl := Option.some.inj (he.symm.trans he')
  have hsame : e.checkpoint = call.expected.checkpoint := by rw [hexpected]
  rw [hsame] at hread
  obtain rfl := Except.ok.inj (hread.symm.trans ((checkpointIn_eq_ok hs.chain).mpr hf'))
  intro p hp hnone
  rw [hcomp.changes, SortedMap.mem_keys, ← hkeys, hnone] at hp
  cases hp

/-- A success is written unless the version numbers are used up. -/
theorem exists_publishVersion (hfits : Fits r S call plan) (hi : Indexed r) (hs : Sound r S)
    {composition : Composition Id} (hcomposed : plan.composed = some (.inr composition))
    (hroom : plan.against.number < MAX_VERSION) :
    ∃ r', r.publishVersion call plan.against composition =
      .ok (plan.against.next call.operation composition.changes composition.tree, r') := by
  have hnumber : (nextNumber plan.against.number : Except (Error Id) VersionNumber) =
      .ok (plan.against.number + 1) := nextNumber_eq_ok.mpr ⟨hroom, rfl⟩
  obtain ⟨objects, hchunks⟩ := Objects.Honest.exists_insertChunks hs.chain.honest composition.chunks
  obtain ⟨rows, hrows⟩ := exists_blameRows (hfits.keys_tracked hi hs hcomposed) SortedMap.empty
  obtain ⟨r₁, happend, htracked⟩ : ∃ r₁, ({ r with
      attempts := r.attempts.insert call.operation ⟨plan.against.number, none, true,
        plan.against.number + 1⟩
      objects := objects } : Repository Id).appendVersionIn plan.against call.operation
        composition.changes composition.tree = .ok (plan.against.next call.operation
          composition.changes composition.tree, r₁) ∧
      r₁.trackedIn call.expected.layer = r.trackedIn call.expected.layer :=
    ⟨_, appendVersionIn_eq_ok.mpr ⟨⟨hroom, rfl⟩, rfl⟩, rfl⟩
  have hblame : ∃ r₂, r₁.recordBlame call.expected.layer (plan.against.number + 1)
      composition.changes = .ok r₂ := by
    rw [← htracked] at hrows
    exact exists_bind_eq_ok hrows ⟨_, rfl⟩
  obtain ⟨r₂, hblame⟩ := hblame
  have hok : ∃ b, r.publishVersion call plan.against composition = .ok b :=
    exists_bind_eq_ok hnumber (exists_bind_eq_ok hchunks (exists_bind_eq_ok happend
      (exists_bind_eq_ok hblame ⟨_, rfl⟩)))
  obtain ⟨⟨version, r'⟩, hok⟩ := hok
  obtain ⟨_, _, hp⟩ := of_publishVersion hok
  exact ⟨r', hp.version_eq ▸ hok⟩

theorem exists_storeReceipt (hh : r.objects.Honest) (outcome : PublishOutcome Id) :
    ∃ r', r.storeReceipt call plan outcome = .ok (call.receipt plan outcome, r') := by
  have hinsert := hh.insert_eq (.blob (receiptBytes (call.receipt plan outcome)))
  have hok : ∃ b, r.storeReceipt call plan outcome = .ok b := exists_bind_eq_ok hinsert ⟨_, rfl⟩
  obtain ⟨⟨receipt, r'⟩, hok⟩ := hok
  have hok' := hok
  unfold storeReceipt at hok'
  obtain ⟨_, _, hpure⟩ := except_bind_eq_ok.mp hok'
  obtain ⟨rfl, _⟩ := Prod.mk.inj (Except.ok.inj hpure)
  exact ⟨r', hok⟩

/-- A plan that is up to date is committed, if its success has room and its guard agrees. -/
theorem exists_commitIn (hs : Sound r S) (hi : Indexed r) (hp : Planned r call plan)
    (hcurrent : r.current call plan = .ok true)
    (hgo : ∀ composition, plan.composed = some (.inr composition) →
      guard plan.against composition.changes = .ok () ∧ plan.against.number < MAX_VERSION) :
    ∃ outcome r', r.commitIn call plan guard = .ok (some (call.receipt plan outcome, r')) ∧
      Committed r call plan outcome r' := by
  have hfits := hp.fits hs hcurrent
  have happly : ∃ b, r.applyPlan call plan guard = .ok b ∧ b.2.objects.Honest := by
    unfold applyPlan
    cases hcomposed : plan.composed with
    | none => exact ⟨_, rfl, hs.chain.honest⟩
    | some composed =>
        cases composed with
        | inl paths => exact ⟨_, rfl, hs.chain.honest⟩
        | inr composition =>
            obtain ⟨hguard, hroom⟩ := hgo composition hcomposed
            obtain ⟨r₁, hpublish⟩ := exists_publishVersion hfits hi hs hcomposed hroom
            obtain ⟨honly, _⟩ := of_publishVersion hpublish
            refine ⟨(.published (plan.against.next call.operation composition.changes
              composition.tree), r₁), ?_, honly.honest hs.chain.honest⟩
            simp only
            rw [except_bind_of_ok hguard, except_bind_of_ok hpublish]
            rfl
  obtain ⟨⟨outcome, r₁⟩, happly, hh⟩ := happly
  obtain ⟨r', hstore⟩ : ∃ r', r₁.storeReceipt call plan outcome = .ok (call.receipt plan outcome, r') :=
    exists_storeReceipt hh outcome
  refine ⟨outcome, r', ?_, of_apply ⟨r₁, _, happly, hstore⟩⟩
  unfold commitIn
  rw [except_bind_of_ok hcurrent, if_pos rfl, except_bind_of_ok happly]
  simp only
  rw [except_bind_of_ok hstore]
  rfl

/-! ### Publishing -/

/-- Publishing an active Layer ends as its composition says. -/
theorem exists_publish (hs : Sound r S) (hi : Indexed r)
    (hunused : r.publications.get? call.operation = none)
    (hunowned : r.attempts.get? call.operation = none)
    (hactive : r.layerStateIn call.expected.layer = .ok (.active call.expected))
    (hwarnings : r.warningsIn call.attribution = .ok warnings)
    (hoverride : checkOverride call.attribution = (.ok () : Except (Error Id) Unit))
    (hhead : r.versions.getLast? = some head) {composed : List RepoPath ⊕ Composition Id}
    (hcomposed : r.composeIn call.expected head = .ok composed)
    (hgo : ∀ composition, composed = .inr composition →
      guard head composition.changes = .ok () ∧ head.number < MAX_VERSION) :
    ∃ outcome r',
      r.prepareIn call = .ok (.advance ⟨head, .active call.expected, warnings, some composed⟩) ∧
      r.commitIn call ⟨head, .active call.expected, warnings, some composed⟩ guard =
        .ok (some (call.receipt ⟨head, .active call.expected, warnings, some composed⟩ outcome, r')) ∧
      Committed r call ⟨head, .active call.expected, warnings, some composed⟩ outcome r' := by
  have hprepare : r.prepareIn call =
      .ok (.advance ⟨head, .active call.expected, warnings, some composed⟩) := by
    rw [prepareIn_of_active hs hunused hunowned hactive hwarnings hoverride hhead,
      except_bind_of_ok hcomposed]
  have hcurrent : r.current call ⟨head, .active call.expected, warnings, some composed⟩ = .ok true :=
    (current_eq_ok hs.chain).mpr ⟨hunused, hunowned, hhead, hactive⟩
  have hgo' : ∀ composition, some composed = some (.inr composition) →
      guard head composition.changes = .ok () ∧ head.number < MAX_VERSION :=
    fun c hc => hgo c (Option.some.inj hc)
  obtain ⟨outcome, r', hcommit, hcommitted⟩ :=
    exists_commitIn hs hi ⟨r, S, hs, .refl r, hprepare⟩ hcurrent hgo'
  exact ⟨outcome, r', hprepare, hcommit, hcommitted⟩

omit [LinearOrder Id] in
/-- A prepared plan that is committed at once is the whole call. -/
theorem publishLayer_of_commitIn [LinearOrder Id] {receipt : PublicationReceipt Id}
    (hprepare : r.prepareIn call = .ok (.advance plan))
    (hcommit : r.commitIn call plan guard = .ok (some (receipt, r'))) (rounds : ℕ) :
    r.publishLayer call guard (rounds + 1) = .ok (receipt, r') := by
  unfold publishLayer
  rw [except_bind_of_ok hprepare]
  simp only
  rw [except_bind_of_ok hcommit]
  rfl

/-- An active Layer without changes is published. -/
theorem exists_publish_unchanged (hs : Sound r S) (hi : Indexed r)
    (hunused : r.publications.get? call.operation = none)
    (hunowned : r.attempts.get? call.operation = none)
    (hactive : r.layerStateIn call.expected.layer = .ok (.active call.expected))
    (hwarnings : r.warningsIn call.attribution = .ok warnings)
    (hoverride : checkOverride call.attribution = (.ok () : Except (Error Id) Unit))
    (hhead : r.versions.getLast? = some head) {checkpoint : LayerCheckpoint Id}
    (hread : r.checkpointIn call.expected.checkpoint = .ok checkpoint)
    (hunchanged : checkpoint.changes = SparseChanges.empty)
    (hbase : checkpoint.base.version ≤ head.number)
    (hguard : guard head SparseChanges.empty = .ok ()) (hroom : head.number < MAX_VERSION) :
    ∃ plan version r', r.prepareIn call = .ok (.advance plan) ∧
      r.commitIn call plan guard = .ok (some (call.receipt plan (.published version), r')) ∧
      Committed r call plan (.published version) r' := by
  obtain ⟨hlast, _⟩ := hs.chain.getElem?_of_head hhead
  have hf := (checkpointIn_eq_ok hs.chain).mp hread
  have hsame : (S head.number).flat.over checkpoint.changes.flat = (S head.number).flat := by
    rw [hunchanged]
    funext p
    rfl
  have hapart : ∀ x, ¬ Meets S checkpoint head.number x := by
    rintro x ⟨p, q, hp, _⟩
    rw [hunchanged] at hp
    exact hp rfl
  have hlow : ¬ TooTall MAX_DEPTH ((S head.number).flat.over checkpoint.changes.flat) := by
    rw [hsame]
    exact (hs.chain.tree _ _ hlast).not_tooTall
  obtain ⟨composition, hcomposed, hcomp⟩ := exists_composition hs.chain hlast hf hbase hapart hlow
  obtain ⟨outcome, r', hprepare, hcommit, hcommitted⟩ := exists_publish hs hi hunused hunowned hactive
    hwarnings hoverride hhead hcomposed (by
      rintro c hc
      obtain rfl := Sum.inr.inj hc
      rw [hcomp.changes, hunchanged]
      exact ⟨hguard, hroom⟩)
  cases hcommitted.world with
  | layerStale hplan => cases hplan
  | conflict paths hplan => cases hplan
  | published composition' version hplan hp =>
      exact ⟨_, version, r', hprepare, hcommit, hcommitted⟩

end calls

end Repository

end Javelin
