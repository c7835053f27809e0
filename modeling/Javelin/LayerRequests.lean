import Javelin.Receipts

/-! # Layer compare-and-swap

`perform` is the three operations on a Layer's head as one: the head token is verified, a published
Layer refuses what is not recorded, `LayerRequest.update` prepares the new head, and `updateIn`
decides.  A recorded operation is `Settled`, and stays so: the same update is answered with the
recorded outcome, another one is refused, and nothing is written (`updateIn_of_settled`). -/

namespace Javelin

open KeyedList

/-- The input of an operation on a Layer's head. -/
inductive LayerRequest (Id : Type) where
  | capture (expected : LayerHead Id) (changes : SparseChanges Id) (provenance : Option Provenance)
  | discard (expected : LayerHead Id)
  | stack (expected : LayerHead Id) (source : Id) (changes : SparseChanges Id) (resolution : Option Id)
      (provenance : Option Provenance)
deriving DecidableEq

def LayerRequest.expected {Id : Type} : LayerRequest Id → LayerHead Id
  | capture expected _ _ => expected
  | discard expected => expected
  | stack expected _ _ _ _ => expected

variable {Id : Type} [LinearOrder Id] [Encoding Id]

/-- The update a request stands for, with what preparing it stores. -/
def LayerRequest.update (r : Repository Id) : LayerRequest Id → Except (Error Id) (Repository.Update Id × Repository Id)
  | capture expected changes provenance => do
      let before ← r.checkpointIn expected.checkpoint
      let (candidate, r) ← r.prepareCheckpoint before.base changes before.sources provenance
      return (⟨expected, candidate, false, none, none⟩, r)
  | discard expected =>
      return (⟨expected, ⟨expected.checkpoint, SparseChanges.empty, none⟩, true, none, none⟩, r)
  | stack expected source changes resolution provenance => do
      let _ ← r.checkpointIn source
      let before ← r.checkpointIn expected.checkpoint
      let (candidate, r) ←
        r.prepareCheckpoint before.base changes (sortDedup (before.sources ++ [source])) provenance
      return (⟨expected, candidate, false, some source, resolution⟩, r)

namespace Repository

/-- `capture_layer`, `discard_layer` or `commit_stack_resolved`. -/
def perform (r : Repository Id) (operation : OperationId) :
    LayerRequest Id → Except (Error Id) (LayerUpdate Id × Repository Id)
  | .capture expected changes provenance => r.captureLayer operation expected changes provenance
  | .discard expected => r.discardLayer operation expected
  | .stack expected source changes resolution provenance =>
      r.commitStack operation expected source changes resolution provenance

variable {r r' : Repository Id} {S S' : VersionNumber → Manifest Id} {op : OperationId}
  {req : LayerRequest Id} {u u' : Update Id} {outcome : LayerUpdate Id}

/-- The common shape of the three operations. -/
theorem perform_eq : r.perform op req =
    r.verifyHead req.expected >>= fun _ => r.refusePublished op req.expected.layer >>= fun _ =>
      req.update r >>= fun prepared => prepared.2.updateIn op prepared.1 := by
  cases req with
  | capture expected changes provenance =>
      unfold perform captureLayer LayerRequest.update
      simp only [bind_assoc, pure_bind]
      rfl
  | discard expected => rfl
  | stack expected source changes resolution provenance =>
      unfold perform commitStack LayerRequest.update
      simp only [bind_assoc, pure_bind]
      rfl

theorem transaction_of_perform (hok : r.perform op req = .ok (outcome, r')) : Transaction r r' := by
  cases req with
  | capture expected changes provenance => exact .captureLayer hok
  | discard expected => exact .discardLayer hok
  | stack expected source changes resolution provenance => exact .commitStack hok

/-- What a request that was performed went through. -/
theorem of_perform (hok : r.perform op req = .ok (outcome, r')) :
    r.verifyHead req.expected = .ok () ∧ r.refusePublished op req.expected.layer = .ok () ∧
      ∃ u r₀, req.update r = .ok (u, r₀) ∧ r₀.updateIn op u = .ok (outcome, r') := by
  rw [perform_eq] at hok
  obtain ⟨_, hverify, h₁⟩ := except_bind_eq_ok.mp hok
  obtain ⟨_, hopen, h₂⟩ := except_bind_eq_ok.mp h₁
  obtain ⟨⟨u, r₀⟩, hupdate, h₃⟩ := except_bind_eq_ok.mp h₂
  exact ⟨hverify, hopen, u, r₀, hupdate, h₃⟩

/-! ### Preparing again -/

/-- Preparing a checkpoint that reads back already stores nothing. -/
theorem prepareCheckpoint_of_known (hc : Chain r S) {base : LayerBase Id} {changes : SparseChanges Id}
    {sources : List Id} {provenance : Option Provenance} {candidate : LayerCandidate Id}
    (hbase : r.validateBase base = .ok ())
    (hnormal : r.normalizeIn base.version changes = .ok candidate.changes)
    (hprov : candidate.provenance =
      provenance.map (fun p => objectId (.blob (provenanceBytes Id p) : Object Id)))
    (hid : candidate.id =
      objectId (.checkpoint ⟨base, candidate.changes, sources, candidate.provenance⟩))
    {checkpoint : LayerCheckpoint Id} (hread : r.checkpointIn candidate.id = .ok checkpoint) :
    r.prepareCheckpoint base changes sources provenance = .ok (candidate, r) := by
  have hf := (checkpointIn_eq_ok hc).mp hread
  have hobject := Objects.readCheckpoint_eq_ok.mp hf.stored
  have hsame := ObjectHash.objectId_injective ((Objects.read_eq_ok.mp hobject).2.1.trans hid)
  have hprovenance : checkpoint.provenance = candidate.provenance :=
    congrArg EncodedCheckpoint.provenance (Object.checkpoint.inj hsame)
  rw [hsame] at hobject
  have hstore : r.objects.storeProvenance provenance = .ok (candidate.provenance, r.objects) := by
    cases provenance with
    | none =>
        rw [hprov]
        rfl
    | some p =>
        have hcheck := hf.provenance
        rw [hprovenance, hprov] at hcheck
        obtain ⟨value, hvalue, _⟩ := except_bind_eq_ok.mp hcheck
        obtain ⟨bytes, hbytes, _⟩ := except_bind_eq_ok.mp (rewrap_eq_ok.mp hvalue)
        obtain ⟨o, ho, hblob⟩ := except_bind_eq_ok.mp hbytes
        have hp := ObjectHash.objectId_injective (Objects.read_eq_ok.mp ho).2.1
        subst hp
        have hinsert := Objects.insert_of_read hc.honest ho
        rw [hprov]
        show (r.objects.insert (.blob (provenanceBytes Id p)) >>= fun _ => _) = _
        rw [except_bind_of_ok hinsert]
        rfl
  have hinsert := Objects.insert_of_read hc.honest hobject
  unfold prepareCheckpoint
  rw [except_bind_of_ok hbase, except_bind_of_ok hnormal, except_bind_of_ok hstore]
  show (r.objects.insert _ >>= fun _ => _) = _
  rw [except_bind_of_ok hinsert]
  rfl

/-- Normalizing against a stored version stays. -/
theorem Later.normalizeIn (h : Later r r') (hc : Chain r S) (hc' : Chain r' S') {base : VersionNumber}
    {v : WorldVersion Id} (hv : r.versions[base]? = some v) (changes : SparseChanges Id) :
    Stable (r.normalizeIn base changes) (r'.normalizeIn base changes) := by
  intro normalized hok
  rw [normalizeIn_eq_ok hc hv] at hok
  rw [normalizeIn_eq_ok hc' (h.versions _ _ hv), h.snapshot hc hc' hv]
  obtain ⟨hvalid, hrest⟩ := hok
  exact ⟨fun p e he => h.objects.validateEntry e _ (hvalid p e he), hrest⟩

theorem Later.validateBase (h : Later r r') (hc : Chain r S) (hc' : Chain r' S') (base : LayerBase Id) :
    Stable (r.validateBase base) (r'.validateBase base) := by
  intro u hok
  rw [validateBase_eq_ok hc] at hok
  rw [validateBase_eq_ok hc', h.identity]
  obtain ⟨hrepo, v, hv, hworld⟩ := hok
  exact ⟨hrepo, v, h.versions _ _ hv, hworld⟩

/-- Preparing the same checkpoint again gives the same candidate and stores nothing. -/
theorem Later.prepareCheckpoint (h : Later r r') (hc : Chain r S) (hc' : Chain r' S')
    {base : LayerBase Id} {changes : SparseChanges Id} {sources : List Id}
    {provenance : Option Provenance} {candidate : LayerCandidate Id} {r₀ : Repository Id}
    (hok : r.prepareCheckpoint base changes sources provenance = .ok (candidate, r₀))
    {checkpoint : LayerCheckpoint Id} (hread : r'.checkpointIn candidate.id = .ok checkpoint) :
    r'.prepareCheckpoint base changes sources provenance = .ok (candidate, r') := by
  obtain ⟨_, _, _, hbase, hnormal⟩ := of_prepareCheckpoint hok
  obtain ⟨hprov, hid⟩ := ids_of_prepareCheckpoint hok
  obtain ⟨_, v, hv, _⟩ := (validateBase_eq_ok hc).mp hbase
  exact prepareCheckpoint_of_known hc' (h.validateBase hc hc' base _ hbase)
    (h.normalizeIn hc hc' hv changes _ hnormal) hprov hid hread

/-! ### Updates of requests -/

theorem expected_of_update {r₀ : Repository Id} (hok : req.update r = .ok (u, r₀)) :
    u.expected = req.expected ∧ (u.source = none → u.resolution = none) := by
  cases req with
  | capture expected changes provenance =>
      obtain ⟨_, _, h₁⟩ := except_bind_eq_ok.mp hok
      obtain ⟨_, _, hpure⟩ := except_bind_eq_ok.mp h₁
      obtain ⟨rfl, _⟩ := Prod.mk.inj (Except.ok.inj hpure)
      exact ⟨rfl, fun _ => rfl⟩
  | discard expected =>
      obtain ⟨rfl, _⟩ := Prod.mk.inj (Except.ok.inj hok)
      exact ⟨rfl, fun _ => rfl⟩
  | stack expected source changes resolution provenance =>
      obtain ⟨_, _, h₁⟩ := except_bind_eq_ok.mp hok
      obtain ⟨_, _, h₂⟩ := except_bind_eq_ok.mp h₁
      obtain ⟨_, _, hpure⟩ := except_bind_eq_ok.mp h₂
      obtain ⟨rfl, _⟩ := Prod.mk.inj (Except.ok.inj hpure)
      exact ⟨rfl, fun hnone => by cases hnone⟩

/-- A request stands for the same update later, once its candidate reads back. -/
theorem Later.update (h : Later r r') (hc : Chain r S) (hc' : Chain r' S') {r₀ : Repository Id}
    (hok : req.update r = .ok (u, r₀)) {checkpoint : LayerCheckpoint Id}
    (hread : r'.checkpointIn u.candidate.id = .ok checkpoint) : req.update r' = .ok (u, r') := by
  cases req with
  | capture expected changes provenance =>
      obtain ⟨before, hbefore, h₁⟩ := except_bind_eq_ok.mp hok
      obtain ⟨⟨candidate, _⟩, hprep, hpure⟩ := except_bind_eq_ok.mp h₁
      obtain ⟨rfl, _⟩ := Prod.mk.inj (Except.ok.inj hpure)
      have hprep' := h.prepareCheckpoint hc hc' hprep hread
      show (r'.checkpointIn expected.checkpoint >>= fun _ => _) = _
      rw [except_bind_of_ok (h.checkpointIn hc hc' _ _ hbefore), except_bind_of_ok hprep']
      rfl
  | discard expected =>
      obtain ⟨rfl, _⟩ := Prod.mk.inj (Except.ok.inj hok)
      rfl
  | stack expected source changes resolution provenance =>
      obtain ⟨stacked, hstacked, h₁⟩ := except_bind_eq_ok.mp hok
      obtain ⟨before, hbefore, h₂⟩ := except_bind_eq_ok.mp h₁
      obtain ⟨⟨candidate, _⟩, hprep, hpure⟩ := except_bind_eq_ok.mp h₂
      obtain ⟨rfl, _⟩ := Prod.mk.inj (Except.ok.inj hpure)
      have hprep' := h.prepareCheckpoint hc hc' hprep hread
      show (r'.checkpointIn source >>= fun _ => _) = _
      rw [except_bind_of_ok (h.checkpointIn hc hc' _ _ hstacked),
        except_bind_of_ok (h.checkpointIn hc hc' _ _ hbefore), except_bind_of_ok hprep']
      rfl

/-- Preparing an update whose candidate reads back already stores nothing. -/
theorem update_of_known (hc : Chain r S) {r₀ : Repository Id} (hok : req.update r = .ok (u, r₀))
    {checkpoint : LayerCheckpoint Id} (hread : r.checkpointIn u.candidate.id = .ok checkpoint) :
    r₀ = r := by
  have hsame := (Later.refl r).update hc hc hok hread
  exact (Prod.mk.inj (Except.ok.inj (hok.symm.trans hsame))).2

/-! ### Recorded operations -/

/-- Two updates with the same recorded input. -/
structure Update.Same (u u' : Update Id) : Prop where
  layer : u.expected.layer = u'.expected.layer
  revision : u.expected.revision = u'.expected.revision
  candidate : u.candidate.id = u'.candidate.id
  discard : u.discard = u'.discard
  source : u.source = u'.source
  resolution : u.resolution = u'.resolution

/-- The operation is recorded, with the update as its input. -/
structure Settled (r : Repository Id) (op : OperationId) (u : Update Id) (outcome : LayerUpdate Id) :
    Prop where
  recorded : ∃ prior, r.layerAttempts.get? op = some prior ∧ ¬ u.Differs prior (r.sourceIn op)
  resolution : r.resolutionIn op = .ok u.resolution
  outcome : r.layerOutcome op = .ok outcome

theorem settled_of_updateIn (hs : Sound r S) (hu : u.source = none → u.resolution = none)
    (hok : r.updateIn op u = .ok (outcome, r')) : Settled r' op u outcome := by
  rcases of_updateIn hok with ⟨rfl, prior, hprior, hsame, hres, hout⟩ | ⟨_, _, accepted, result, hrec⟩
  · exact ⟨⟨prior, hprior, hsame⟩, hres, hout⟩
  · have hrows : r.stackRows.get? op = none := by
      cases hrow : r.stackRows.get? op with
      | none => rfl
      | some row =>
          obtain ⟨a, ha⟩ := hs.bindings op row hrow
          rw [hrec.fresh] at ha
          cases ha
    have hsource := hrec.source.1 hrows
    refine ⟨⟨u.attempt accepted result, ?_, ?_⟩, ?_, hrec.outcome⟩
    · rw [hrec.layerAttempts, SortedMap.get?_insert, if_pos rfl]
    · rw [hsource]
      unfold Update.Differs Update.attempt
      simp
    · by_cases hnone : u.source = none
      · rw [hnone] at hsource
        rw [hu hnone]
        unfold resolutionIn
        unfold sourceIn at hsource
        rw [Option.map_eq_none_iff] at hsource
        rw [hsource]
        rfl
      · exact hrec.source.2 hnone

theorem Settled.later (hset : Settled r op u outcome) (h : Later r r') (hc : Chain r S)
    (hc' : Chain r' S') : Settled r' op u outcome := by
  obtain ⟨⟨prior, hprior, hsame⟩, hres, hout⟩ := hset
  have hrows := h.stackRows op prior hprior
  refine ⟨⟨prior, h.layerAttempts _ _ hprior, ?_⟩, ?_, h.layerOutcome hc hc' op _ hout⟩
  · unfold sourceIn at hsame ⊢
    rwa [hrows]
  · unfold resolutionIn at hres ⊢
    rw [hrows]
    cases hrow : r.stackRows.get? op with
    | none =>
        rw [hrow] at hres
        exact hres
    | some row =>
        rw [hrow] at hres
        exact (h.objects.readBlob _).bind (fun _ _ => .refl _) _ hres

/-- A settled operation answers its update with the recorded outcome, and refuses another one. -/
theorem updateIn_of_settled (hset : Settled r op u outcome) (u' : Update Id) :
    (u'.Same u → r.updateIn op u' = .ok (outcome, r)) ∧
      (¬ u'.Same u → r.updateIn op u' = .error (.operationIdReused op)) := by
  obtain ⟨⟨prior, hprior, hsame⟩, hres, hout⟩ := hset
  unfold Update.Differs at hsame
  simp only [not_or, not_not] at hsame
  obtain ⟨hlayer, hrevision, hcandidate, hdiscard, hsource⟩ := hsame
  have hdiffers : u'.Differs prior (r.sourceIn op) ↔ ¬ (u'.expected.layer = u.expected.layer ∧
      u'.expected.revision = u.expected.revision ∧ u'.candidate.id = u.candidate.id ∧
      u'.discard = u.discard ∧ u'.source = u.source) := by
    unfold Update.Differs
    rw [hlayer, hrevision, hcandidate, hdiscard, hsource]
    simp only [not_and_or, ne_eq, eq_comm]
  unfold updateIn
  rw [hprior]
  simp only
  constructor
  · intro h
    have hno : refuse (u'.Differs prior (r.sourceIn op)) (.operationIdReused op : Error Id) = .ok () := by
      rw [refuse_eq_ok, hdiffers, not_not]
      exact ⟨h.layer, h.revision, h.candidate, h.discard, h.source⟩
    have hres' : refuse (u.resolution ≠ u'.resolution) (.operationIdReused op : Error Id) = .ok () := by
      rw [refuse_eq_ok, not_not]
      exact h.resolution.symm
    rw [except_bind_of_ok hno, except_bind_of_ok hres, except_bind_of_ok hres', except_bind_of_ok hout]
    rfl
  · intro h
    by_cases hd : u'.Differs prior (r.sourceIn op)
    · unfold refuse
      rw [if_pos hd]
      rfl
    · have hno : refuse (u'.Differs prior (r.sourceIn op)) (.operationIdReused op : Error Id) = .ok () :=
        refuse_eq_ok.mpr hd
      have hne : u.resolution ≠ u'.resolution := by
        intro he
        rw [hdiffers, not_not] at hd
        obtain ⟨h₁, h₂, h₃, h₄, h₅⟩ := hd
        exact h ⟨h₁, h₂, h₃, h₄, h₅, he.symm⟩
      rw [except_bind_of_ok hno, except_bind_of_ok hres]
      unfold refuse
      rw [if_pos hne]
      rfl

/-! ### Performing again -/

omit [Encoding Id] in
theorem Later.verifyHead (h : Later r r') (head : LayerHead Id) :
    Stable (r.verifyHead head) (r'.verifyHead head) := by
  intro x hok
  rw [verifyHead_eq_ok] at hok ⊢
  obtain ⟨hid, hlt, e, he, hrest⟩ := hok
  exact ⟨hid.trans h.identity.symm, hlt, e, h.events _ _ _ he, hrest⟩

/-- A recorded operation is not refused on a published Layer. -/
theorem Settled.refusePublished (hset : Settled r op u outcome) (layer : LayerId) :
    r.refusePublished op layer = .ok () := by
  obtain ⟨⟨prior, hprior, _⟩, _⟩ := hset
  unfold Repository.refusePublished
  rw [hprior]
  rfl

/-- What a settled operation answers to any request with a valid head. -/
theorem perform_of_settled (hset : Settled r op u outcome) (hverify : r.verifyHead req.expected = .ok ()) :
    r.perform op req = req.update r >>= fun prepared => prepared.2.updateIn op prepared.1 := by
  rw [perform_eq, except_bind_of_ok hverify, except_bind_of_ok (hset.refusePublished _)]

/-- Preparing a request only stores objects. -/
theorem of_update (hs : Sound r S) {r₀ : Repository Id} (hok : req.update r = .ok (u, r₀)) :
    (∃ objects, r₀ = { r with objects := objects }) ∧ Later r r₀ ∧ Sound r₀ S := by
  cases req with
  | capture expected changes provenance =>
      obtain ⟨_, _, h₁⟩ := except_bind_eq_ok.mp hok
      obtain ⟨⟨candidate, _⟩, hprep, hpure⟩ := except_bind_eq_ok.mp h₁
      obtain ⟨_, rfl⟩ := Prod.mk.inj (Except.ok.inj hpure)
      obtain ⟨objects, rfl, hp, _⟩ := of_prepareCheckpoint hprep
      exact ⟨⟨objects, rfl⟩, hp.sound hs⟩
  | discard expected =>
      obtain ⟨_, rfl⟩ := Prod.mk.inj (Except.ok.inj hok)
      exact ⟨⟨_, rfl⟩, .refl _, hs⟩
  | stack expected source changes resolution provenance =>
      obtain ⟨_, _, h₁⟩ := except_bind_eq_ok.mp hok
      obtain ⟨_, _, h₂⟩ := except_bind_eq_ok.mp h₁
      obtain ⟨⟨candidate, _⟩, hprep, hpure⟩ := except_bind_eq_ok.mp h₂
      obtain ⟨_, rfl⟩ := Prod.mk.inj (Except.ok.inj hpure)
      obtain ⟨objects, rfl, hp, _⟩ := of_prepareCheckpoint hprep
      exact ⟨⟨objects, rfl⟩, hp.sound hs⟩

/-- A performed request is settled, and its candidate reads back. -/
theorem settled_of_perform (hs : Sound r S) (hok : r.perform op req = .ok (outcome, r')) :
    ∃ u r₀, req.update r = .ok (u, r₀) ∧ Settled r' op u outcome ∧
      ∃ checkpoint, r'.checkpointIn u.candidate.id = .ok checkpoint := by
  obtain ⟨_, _, u, r₀, hupdate, hupdated⟩ := of_perform hok
  obtain ⟨_, _, hs₀⟩ := of_update hs hupdate
  obtain ⟨_, _, hread⟩ := candidate_of_updateIn hupdated
  exact ⟨u, r₀, hupdate, settled_of_updateIn hs₀ (expected_of_update hupdate).2 hupdated, hread⟩

/-- The same request is answered with the recorded outcome at any later time. -/
theorem perform_again (hs : Sound r S) {r₁ : Repository Id} {S₁ : VersionNumber → Manifest Id}
    (hok : r.perform op req = .ok (outcome, r₁)) (hs₁ : Sound r₁ S₁) (h₁ : Later r r₁)
    (h : Later r₁ r') (hs' : Sound r' S') : r'.perform op req = .ok (outcome, r') := by
  obtain ⟨u, r₀, hupdate, hset, checkpoint, hread⟩ := settled_of_perform hs hok
  have hset' := hset.later h hs₁.chain hs'.chain
  have hverify := (h₁.trans h).verifyHead _ _ (of_perform hok).1
  have hupdate' := (h₁.trans h).update hs.chain hs'.chain hupdate
    (h.checkpointIn hs₁.chain hs'.chain _ _ hread)
  rw [perform_of_settled hset' hverify, except_bind_of_ok hupdate']
  exact (updateIn_of_settled hset' u).1 ⟨rfl, rfl, rfl, rfl, rfl, rfl⟩

/-- Another request under a settled operation: an input that cannot be prepared is refused as such,
one that stands for the recorded update is a retry, any other one reuses the ID. -/
theorem perform_other (hs : Sound r S) (hset : Settled r op u outcome)
    {checkpoint : LayerCheckpoint Id} (hread : r.checkpointIn u.candidate.id = .ok checkpoint)
    (hverify : r.verifyHead req.expected = .ok ()) :
    (∀ e, req.update r = .error e → r.perform op req = .error e) ∧
      ∀ u' r₀, req.update r = .ok (u', r₀) →
        (u'.Same u → r.perform op req = .ok (outcome, r)) ∧
        (¬ u'.Same u → r.perform op req = .error (.operationIdReused op)) := by
  rw [perform_of_settled hset hverify]
  refine ⟨fun e he => by rw [he]; rfl, fun u' r₀ hok => ?_⟩
  obtain ⟨_, hl, hs₀⟩ := of_update hs hok
  have hset₀ := hset.later hl hs.chain hs₀.chain
  rw [except_bind_of_ok hok]
  refine ⟨fun hsame => ?_, (updateIn_of_settled hset₀ u').2⟩
  have hknown : r₀ = r := update_of_known hs.chain hok (hsame.candidate.symm ▸ hread)
  subst hknown
  exact (updateIn_of_settled hset u').1 hsame

/-! ### Attempts that add no revision -/

/-- An attempt at another than the latest revision, or at a discarded Layer, adds no revision. -/
theorem events_of_perform (hs : Sound r S) (hok : r.perform op req = .ok (outcome, r'))
    {revision : ℕ} {current : Event Id}
    (hlatest : r.latestIn req.expected.layer = .ok (revision, current))
    (hlost : req.expected.revision ≠ revision ∨ current.discarded = true) (layer : LayerId) :
    r'.events layer = r.events layer := by
  obtain ⟨_, _, u, r₀, hupdate, hupdated⟩ := of_perform hok
  obtain ⟨⟨objects, rfl⟩, _⟩ := of_update hs hupdate
  have hexpected := (expected_of_update hupdate).1
  cases of_updateIn hupdated with
  | inl h =>
      obtain ⟨rfl, _⟩ := h
      rfl
  | inr h =>
      obtain ⟨revision', current', accepted, result, hrec⟩ := h
      have hlatest' : r.latestIn u.expected.layer = .ok (revision', current') := hrec.latest
      rw [hexpected, hlatest] at hlatest'
      obtain ⟨rfl, rfl⟩ := Prod.mk.inj (Except.ok.inj hlatest')
      have hrefused : ¬ accepted = true := by
        rw [hrec.decided, hexpected]
        intro h
        cases hlost with
        | inl hne => exact hne h.1.symm
        | inr hdiscarded =>
            rw [hdiscarded] at h
            cases h.2
      rw [hrec.events layer, if_neg (fun h => hrefused h.1)]
      rfl

/-- A new attempt on a published Layer is refused. -/
theorem perform_of_published (hs : Sound r S) (hfresh : r.layerAttempts.get? op = none)
    {id : OperationId} {row : PublicationRow Id} (hrow : r.publications.get? id = some row)
    (hlayer : row.layer = req.expected.layer) (htag : row.outcome = .published) :
    ∃ e, r.perform op req = .error e := by
  cases hok : r.perform op req with
  | error e => exact ⟨e, rfl⟩
  | ok outcome =>
      have hnone := of_refusePublished hs (of_perform hok).2.1 hfresh
      exact absurd htag (successOf_eq_none.mp hnone id row hrow hlayer)

/-! ### Inputs that normalize alike -/

/-- Captures whose changes normalize alike are the same update. -/
theorem update_capture_congr {expected : LayerHead Id} {changes changes' : SparseChanges Id}
    {before : LayerCheckpoint Id} (hbefore : r.checkpointIn expected.checkpoint = .ok before)
    (hnormal : r.normalizeIn before.base.version changes = r.normalizeIn before.base.version changes')
    (provenance : Option Provenance) :
    LayerRequest.update r (.capture expected changes provenance) =
      LayerRequest.update r (.capture expected changes' provenance) := by
  unfold LayerRequest.update
  simp only
  rw [except_bind_of_ok hbefore, except_bind_of_ok hbefore]
  unfold prepareCheckpoint
  rw [hnormal]

/-- The changeset that deletes one path. -/
def deletion (Id : Type) (p : RepoPath) (hp : p.Valid) : SparseChanges Id where
  entries := SortedMap.empty.insert p none
  valid q hq := by
    rw [SortedMap.mem_keys, SortedMap.get?_insert] at hq
    by_cases h : p = q
    · exact h ▸ hp
    · rw [if_neg h] at hq
      cases hq

omit [LinearOrder Id] [Encoding Id] in
theorem deletion_flat (p : RepoPath) (hp : p.Valid) (q : List Name) :
    (deletion Id p hp).flat q = if p.names = q then some none else none := by
  have hkey : p = ⟨q⟩ ↔ p.names = q := ⟨fun h => congrArg RepoPath.names h, fun h => h ▸ rfl⟩
  show (SortedMap.empty.insert p none).get? ⟨q⟩ = _
  rw [SortedMap.get?_insert]
  simp only [hkey]
  rfl

/-- Deleting a path with nothing at or below it is no change. -/
theorem normalizeIn_deletion (hc : Chain r S) {base : VersionNumber} {v : WorldVersion Id}
    (hv : r.versions[base]? = some v) (p : RepoPath) (hp : p.Valid)
    (hat : (S base).flat p.names = none) (hbelow : ¬ (S base).flat.Below p.names) :
    r.normalizeIn base (deletion Id p hp) = .ok SparseChanges.empty := by
  have hnone : ∀ q e, (deletion Id p hp).flat q ≠ some (some e) := by
    intro q e he
    rw [deletion_flat] at he
    by_cases h : p.names = q
    · rw [if_pos h] at he
      cases he
    · rw [if_neg h] at he
      cases he
  have hover : (S base).flat.over (deletion Id p hp).flat = (S base).flat := by
    funext q
    unfold Flat.over
    rw [deletion_flat]
    by_cases h : p.names = q
    · subst h
      rw [if_pos rfl, hat]
      rfl
    · rw [if_neg h]
      rfl
  rw [normalizeIn_eq_ok hc hv, hover]
  refine ⟨fun q e he => absurd he (hnone q e), ?_, (S base).prefixFree, ?_⟩
  · intro h
    obtain ⟨q, _, hq, _, t, ht, hset⟩ := h
    rw [deletion_flat] at hq
    have hname : p.names = q := by
      by_contra hne
      rw [if_neg hne] at hq
      cases hq
    subst hname
    cases hset with
    | inl hset => exact hbelow ⟨t, ht, hset⟩
    | inr hset =>
        obtain ⟨e, he⟩ := hset
        exact hnone _ e he
  · funext q
    exact (if_pos rfl).symm

end Repository

/-! ### Compare-and-swap -/

namespace System

open Repository

/-- However the steps of any clients interleave: a Layer's revisions are without gaps and keep one
base; every accepted revision was made from the one before; an attempt from another revision, or
after the Layer was discarded or published, adds none; and a recorded operation answers the update
it was recorded for with the recorded outcome and refuses any other one, changing nothing. -/
theorem Reachable.layer_compare_and_swap {s : System Id} (h : Reachable s) :
    (∀ layer m e, (s.repository.events layer).get? m = some e →
      (∀ n ≤ m, ∃ e', (s.repository.events layer).get? n = some e') ∧
      ∃ checkpoint, s.repository.checkpointIn e.checkpoint = .ok checkpoint ∧
        ∀ s', Run s s' → ∀ n e', (s'.repository.events layer).get? n = some e' →
          ∃ checkpoint', s'.repository.checkpointIn e'.checkpoint = .ok checkpoint' ∧
            checkpoint'.base = checkpoint.base) ∧
    (∀ layer n e, (s.repository.events layer).get? (n + 1) = some e →
      ∃ op a, e.operation = some op ∧ s.repository.layerAttempts.get? op = some a ∧
        a.accepted = true ∧ a.layer = layer ∧ a.expected = n ∧ a.result = n + 1) ∧
    (∀ op req outcome r', s.repository.perform op req = .ok (outcome, r') →
      ∀ revision current, s.repository.latestIn req.expected.layer = .ok (revision, current) →
        req.expected.revision ≠ revision ∨ current.discarded = true →
        ∀ layer, r'.events layer = s.repository.events layer) ∧
    (∀ op req id row, s.repository.layerAttempts.get? op = none →
      s.repository.publications.get? id = some row → row.layer = req.expected.layer →
      row.outcome = .published → ∃ e, s.repository.perform op req = .error e) ∧
    (∀ call plan guard receipt r', (call, plan) ∈ s.plans →
      s.repository.commitIn call plan guard = .ok (some (receipt, r')) →
      ∀ layer, r'.events layer = s.repository.events layer) ∧
    ∀ op req outcome r', s.repository.perform op req = .ok (outcome, r') →
      ∃ u r₀, req.update s.repository = .ok (u, r₀) ∧ ∀ s', Run ⟨r', s.plans⟩ s' →
        s'.repository.perform op req = .ok (outcome, s'.repository) ∧
        ∀ other, s'.repository.verifyHead other.expected = .ok () →
          (∀ e, other.update s'.repository = .error e →
            s'.repository.perform op other = .error e) ∧
          ∀ u' r₀', other.update s'.repository = .ok (u', r₀') →
            (u'.Same u → s'.repository.perform op other = .ok (outcome, s'.repository)) ∧
            (¬ u'.Same u →
              s'.repository.perform op other = .error (.operationIdReused op)) := by
  obtain ⟨S, hs⟩ := h.sound.repository
  refine ⟨fun layer m e he => ?_, fun layer => (hs.history layer).later, fun op req outcome r' hok
    revision current => events_of_perform hs hok, fun op req id row hfresh => perform_of_published hs hfresh,
    fun call plan guard receipt r' hm hok layer => ?_, fun op req outcome r' hok => ?_⟩
  · refine ⟨fun n hn => (hs.history layer).contiguous n m e he hn, ?_⟩
    obtain ⟨base, hbase⟩ := (hs.history layer).based
    obtain ⟨checkpoint, hf, rfl⟩ := hbase m e he
    refine ⟨checkpoint, (checkpointIn_eq_ok hs.chain).mpr hf, fun s' hrun n e' he' => ?_⟩
    obtain ⟨hl, hs'⟩ := hrun.later h.sound
    obtain ⟨S', hs'⟩ := hs'.repository
    obtain ⟨base', hbase'⟩ := (hs'.history layer).based
    obtain ⟨kept, hkept, hsame⟩ := hbase' m e (hl.events layer m e he)
    obtain ⟨checkpoint', hf', hother⟩ := hbase' n e' he'
    have hread := (checkpointIn_eq_ok hs'.chain).mp
      (hl.checkpointIn hs.chain hs'.chain _ _ ((checkpointIn_eq_ok hs.chain).mpr hf))
    have hunique := (checkpointIn_eq_ok hs'.chain).mpr hkept
    rw [(checkpointIn_eq_ok hs'.chain).mpr hread] at hunique
    obtain rfl := Except.ok.inj hunique
    exact ⟨checkpoint', (checkpointIn_eq_ok hs'.chain).mpr hf', hother.trans hsame.symm⟩
  · obtain ⟨_, outcome, hcommitted, _⟩ := of_commitIn hok
    unfold Repository.events
    rw [hcommitted.only.layerHeads]
  · obtain ⟨u, r₀, hupdate, hset, checkpoint, hread⟩ := settled_of_perform hs hok
    have hstep : Run s ⟨r', s.plans⟩ := .single (.transact (transaction_of_perform hok))
    obtain ⟨hl₁, hnext⟩ := hstep.later h.sound
    obtain ⟨S₁, hs₁⟩ := hnext.repository
    refine ⟨u, r₀, hupdate, fun s' hrun => ?_⟩
    obtain ⟨hl, hs'⟩ := hrun.later hnext
    obtain ⟨S', hs'⟩ := hs'.repository
    exact ⟨perform_again hs hok hs₁ hl₁ hl hs', fun other hverify => perform_other hs'
      (hset.later hl hs₁.chain hs'.chain) (hl.checkpointIn hs₁.chain hs'.chain _ _ hread) hverify⟩

/-- In a new repository a Layer can be created, and its first head captured. -/
theorem exists_first_capture (identity : Id) (layer : LayerId) (op : OperationId) :
    ∃ (r : Repository Id) (head : LayerHead Id) (before : LayerCheckpoint Id) (next : LayerHead Id)
      (r' : Repository Id), Reachable ⟨r, []⟩ ∧ r.layerStateIn layer = .ok (.active head) ∧
      head.layer = layer ∧ head.revision = 0 ∧
      r.checkpointIn head.checkpoint = .ok before ∧ before.base.version = 0 ∧
      Captured r op head before SparseChanges.empty SparseChanges.empty next r' := by
  obtain ⟨head, r, hcreated, hreach⟩ := exists_created identity layer
  obtain ⟨S, hs⟩ := hreach.sound.repository
  obtain ⟨before, hbefore, hbase, _⟩ := hcreated.unchanged
  have hfresh : r.layerAttempts.get? op = none := by
    rw [hcreated.layerAttempts]
    rfl
  have hactive : r.layerStateIn head.layer = .ok (.active head) := by
    rw [hcreated.named]
    exact hcreated.active
  have hnormal : r.normalizeIn before.base.version SparseChanges.empty = .ok SparseChanges.empty := by
    rw [hbase]
    exact normalizeIn_empty hs.chain hs.chain.first
  have hroom : head.revision + 1 < REVISIONS := by
    rw [hcreated.revision]
    decide
  obtain ⟨next, r', hcaptured⟩ := exists_captureLayer hs hfresh hactive hbefore hnormal hroom
  exact ⟨r, head, before, next, r', hreach, hcreated.active, hcreated.named, hcreated.revision, hbefore,
    by rw [hbase], hcaptured⟩

/-- In a new repository a Layer can be created and captured. -/
theorem exists_captured (identity : Id) (layer : LayerId) (op : OperationId) :
    ∃ (r : Repository Id) (head : LayerHead Id) (outcome : LayerUpdate Id) (r' : Repository Id),
      Reachable ⟨r, []⟩ ∧ r.perform op (.capture head SparseChanges.empty none) = .ok (outcome, r') ∧
      ∃ before, r.checkpointIn head.checkpoint = .ok before ∧ before.base.version = 0 := by
  obtain ⟨r, head, before, next, r', hreach, _, _, _, hbefore, hbase, hcaptured⟩ :=
    exists_first_capture identity layer op
  exact ⟨r, head, .applied (.active next), r', hreach, hcaptured.captured, before, hbefore, hbase⟩

/-- A capture of a numbered repository: it is answered alike from then on. -/
theorem layer_compare_and_swap_captured : ∃ (s : System ℕ) (req : LayerRequest ℕ)
    (outcome : LayerUpdate ℕ) (r' : Repository ℕ),
    s.repository.perform ⟨[49]⟩ req = .ok (outcome, r') ∧
      ∀ s', Run ⟨r', s.plans⟩ s' →
        s'.repository.perform ⟨[49]⟩ req = .ok (outcome, s'.repository) := by
  obtain ⟨r, head, outcome, r', hreach, hok, _⟩ := exists_captured (0 : ℕ) ⟨[97]⟩ ⟨[49]⟩
  obtain ⟨_, _, _, hagain⟩ := hreach.layer_compare_and_swap.2.2.2.2.2 _ _ _ _ hok
  exact ⟨⟨r, []⟩, _, outcome, r', hok, fun s' hrun => (hagain s' hrun).1⟩

theorem pathA_valid : Trees.pathA.Valid := by decide

/-- A request under a recorded operation ID can differ from the recorded one and still be answered
with its outcome: a capture of nothing, repeated as the deletion of a path that is not there. -/
theorem other_input_is_a_retry : ∃ (r : Repository ℕ) (head : LayerHead ℕ) (outcome : LayerUpdate ℕ)
    (r' : Repository ℕ), Reachable ⟨r, []⟩ ∧
      r.perform ⟨[49]⟩ (.capture head SparseChanges.empty none) = .ok (outcome, r') ∧
      r'.verifyHead head = .ok () ∧
      LayerRequest.capture head (deletion ℕ Trees.pathA pathA_valid) none ≠
        .capture head SparseChanges.empty none ∧
      r'.perform ⟨[49]⟩ (.capture head (deletion ℕ Trees.pathA pathA_valid) none) = .ok (outcome, r') := by
  obtain ⟨r, head, outcome, r', hreach, hok, before, hbefore, hbase⟩ :=
    exists_captured (0 : ℕ) ⟨[97]⟩ ⟨[49]⟩
  obtain ⟨S, hs⟩ := hreach.sound.repository
  have hrun : Run (⟨r, []⟩ : System ℕ) ⟨r', []⟩ :=
    .single (.transact (transaction_of_perform hok))
  obtain ⟨hl, hs'⟩ := hrun.later hreach.sound
  obtain ⟨S', hs'⟩ := hs'.repository
  have hagain : r'.perform ⟨[49]⟩ (.capture head SparseChanges.empty none) = .ok (outcome, r') :=
    perform_again hs hok hs' hl (.refl r') hs'
  have hbefore' := hl.checkpointIn hs.chain hs'.chain _ _ hbefore
  have hnormal : r'.normalizeIn before.base.version (deletion ℕ Trees.pathA pathA_valid) =
      r'.normalizeIn before.base.version SparseChanges.empty := by
    rw [hbase, normalizeIn_empty hs'.chain hs'.chain.first]
    refine normalizeIn_deletion hs'.chain hs'.chain.first Trees.pathA pathA_valid ?_ ?_
    · rw [hs'.chain.genesis]
      rfl
    · rw [hs'.chain.genesis]
      intro h
      obtain ⟨q, _, hq⟩ := h
      exact hq rfl
  refine ⟨r, head, outcome, r', hreach, hok, (of_perform hagain).1, ?_, ?_⟩
  · intro h
    have hflat := congrFun (congrArg SparseChanges.flat (LayerRequest.capture.inj h).2.1) Trees.pathA.names
    rw [deletion_flat, if_pos rfl] at hflat
    cases hflat
  · rw [perform_eq] at hagain ⊢
    rw [update_capture_congr hbefore' hnormal none]
    exact hagain

end System

end Javelin
