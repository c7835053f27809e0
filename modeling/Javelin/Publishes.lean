import Javelin.Containment
import Javelin.Hosted

/-! # Publications of a hosted repository

`Hosted r`: runs lead to the repository.  `Publishes r call receipt r'`: it publishes a new operation; its
receipt is stored (`Publishes.publication`), and the World gets at most the version of the receipt
(`Publishes.versions`).  `TreeOf`: the tree of a checkpoint. -/

namespace Javelin

open KeyedList Collaboration Identity Protocol Codec

variable {Id : Type} [LinearOrder Id] [Encoding Id]

namespace Repository
variable {r r' : Repository Id} {S : VersionNumber → Manifest Id}

/-- The repository is one that runs lead to. -/
def Hosted (r : Repository Id) : Prop := ∃ plans, System.Reachable ⟨r, plans⟩

theorem Hosted.sound (h : Hosted r) : ∃ S, Sound r S := by
  obtain ⟨plans, h⟩ := h
  exact h.sound.repository

theorem Hosted.quiet (h : Hosted r) (hq : Quiet r r') : Hosted r' := by
  obtain ⟨plans, h⟩ := h
  exact ⟨plans, h.run (hq.run plans)⟩

theorem Quiet.later (hq : Quiet r r') (h : Hosted r) : Later r r' := by
  obtain ⟨plans, h⟩ := h
  exact ((hq.run plans).later h.sound).1

/-- The tree is that of the checkpoint's files. -/
def TreeOf (r : Repository Id) (checkpoint tree : Id) : Prop :=
  ∃ m, r.checkpointManifest checkpoint = .ok m ∧ IsTree r.objects.Readable m.flat tree

/-- A new operation is published by the repository. -/
structure Publishes (r : Repository Id) (call : PublishCall Id) (receipt : PublicationReceipt Id)
    (r' : Repository Id) : Prop where
  fresh : r.publications.get? call.operation = none
  published : r.publishLayer call allow 1 = .ok (receipt, r')

theorem publication_eq_none {op : OperationId} : r.publication op = .ok none ↔ r.publications.get? op = none := by
  unfold publication
  cases hrow : r.publications.get? op with
  | none => exact ⟨fun _ => rfl, fun _ => rfl⟩
  | some row =>
      constructor
      · intro h
        obtain ⟨_, _, hpure⟩ := except_bind_eq_ok.mp h
        cases hpure
      · intro h
        cases h

/-- A new publication was prepared, and committed at once. -/
theorem Publishes.exists_plan {call : PublishCall Id} {receipt : PublicationReceipt Id}
    (h : Publishes r call receipt r') : ∃ plan, r.prepareIn call = .ok (.advance plan) ∧
      r.commitIn call plan allow = .ok (some (receipt, r')) := by
  have hok := h.published
  unfold publishLayer at hok
  obtain ⟨prepared, hprepare, hok⟩ := except_bind_eq_ok.mp hok
  cases prepared with
  | replay receipt' =>
      unfold prepareIn at hprepare
      rw [except_bind_of_ok (publication_eq_none.mpr h.fresh)] at hprepare
      obtain ⟨plan, _, hpure⟩ := except_bind_eq_ok.mp hprepare
      cases hpure
  | advance plan =>
      refine ⟨plan, hprepare, ?_⟩
      obtain ⟨committed, hcommit, hok⟩ := except_bind_eq_ok.mp hok
      cases committed with
      | none => cases hok
      | some done =>
          obtain rfl := Except.ok.inj hok
          exact hcommit

theorem Publishes.run {call : PublishCall Id} {receipt : PublicationReceipt Id}
    (h : Publishes r call receipt r') (plans : List (PublishCall Id × Plan Id)) :
    ∃ plans', System.Run (⟨r, plans⟩ : System Id) ⟨r', plans'⟩ := by
  obtain ⟨plan, hprepare, hcommit⟩ := h.exists_plan
  exact ⟨(call, plan) :: plans, .tail (.single (.prepare hprepare)) (.commit List.mem_cons_self hcommit)⟩

theorem Hosted.publishes (h : Hosted r) {call : PublishCall Id} {receipt : PublicationReceipt Id}
    (hp : Publishes r call receipt r') : Hosted r' := by
  obtain ⟨plans, h⟩ := h
  obtain ⟨plans', hrun⟩ := hp.run plans
  exact ⟨plans', h.run hrun⟩

theorem Publishes.later {call : PublishCall Id} {receipt : PublicationReceipt Id}
    (hp : Publishes r call receipt r') (h : Hosted r) : Later r r' := by
  obtain ⟨plans, h⟩ := h
  obtain ⟨plans', hrun⟩ := hp.run plans
  exact (hrun.later h.sound).1

omit [LinearOrder Id] [Encoding Id] in
theorem layer_of_active [LinearOrder Id] [Encoding Id] {layer : LayerId} {head : LayerHead Id}
    (hok : r.layerStateIn layer = .ok (.active head)) : head.layer = layer := by
  unfold layerStateIn at hok
  obtain ⟨state, hstate, hok⟩ := except_bind_eq_ok.mp hok
  cases state with
  | some state =>
      obtain rfl := Except.ok.inj hok
      unfold publishedStateIn at hstate
      split at hstate
      · cases hstate
      · obtain ⟨_, _, h₁⟩ := except_bind_eq_ok.mp hstate
        obtain ⟨state', hsuccess, h₂⟩ := except_bind_eq_ok.mp h₁
        obtain rfl := Option.some.inj (Except.ok.inj h₂)
        unfold successState at hsuccess
        obtain ⟨_, _, h₃⟩ := except_bind_eq_ok.mp hsuccess
        obtain ⟨_, _, h₄⟩ := except_bind_eq_ok.mp h₃
        split at h₄
        · cases h₄
        · obtain ⟨_, _, h₅⟩ := except_bind_eq_ok.mp h₄
          cases h₅
  | none =>
      obtain ⟨n, e, _, hactive⟩ := latestEventStateIn_eq_ok.mp hok
      unfold Event.state at hactive
      split at hactive
      · cases hactive
      · cases hactive
        rfl

end Repository

/-! ### The tree of a checkpoint -/

namespace Repository
variable {r r' : Repository Id} {S S' : VersionNumber → Manifest Id}

theorem frozen_of_checkpointManifest (hs : Sound r S) {id : Id} {m : Manifest Id}
    (hok : r.checkpointManifest id = .ok m) : ∃ checkpoint, Frozen r S id checkpoint ∧
      m.flat = (S checkpoint.base.version).flat.over checkpoint.changes.flat := by
  have hread := hok
  unfold checkpointManifest at hread
  obtain ⟨checkpoint, hfrozen, _⟩ := except_bind_eq_ok.mp hread
  have hf := (checkpointIn_eq_ok hs.chain).mp hfrozen
  obtain ⟨m', hm', hflat⟩ := hs.exists_checkpointManifest hf
  obtain rfl := Except.ok.inj (hok.symm.trans hm')
  exact ⟨checkpoint, hf, hflat⟩

/-- A snapshot stays. -/
theorem Later.manifestAt (h : Later r r') (hc : Chain r S) (hc' : Chain r' S') (n : VersionNumber) :
    Stable (r.manifestAt n) (r'.manifestAt n) := by
  intro m hm
  have hread := hm
  unfold Repository.manifestAt at hread
  obtain ⟨v, hv, _⟩ := except_bind_eq_ok.mp hread
  have hv := hc.versionIn_eq_ok.mp hv
  obtain rfl := Except.ok.inj (hm.symm.trans (hc.manifestAt_eq hv))
  rw [hc'.manifestAt_eq (h.versions _ _ hv), h.snapshot hc hc' hv]

/-- The files of a checkpoint stay. -/
theorem Later.checkpointManifest (h : Later r r') (hs : Sound r S) (hs' : Sound r' S') {id : Id}
    {m : Manifest Id} (hok : r.checkpointManifest id = .ok m) : r'.checkpointManifest id = .ok m := by
  obtain ⟨checkpoint, hf, hflat⟩ := frozen_of_checkpointManifest hs hok
  obtain ⟨m', hm', hflat'⟩ := hs'.exists_checkpointManifest (hf.later h hs.chain hs'.chain)
  obtain ⟨v, hv, _⟩ := hf.version
  rw [h.snapshot hs.chain hs'.chain hv, ← hflat] at hflat'
  rw [hm', Manifest.flat_injective hflat']

theorem TreeOf.later {checkpoint tree : Id} (ht : TreeOf r checkpoint tree) (h : Later r r') (hs : Sound r S)
    (hs' : Sound r' S') : TreeOf r' checkpoint tree := by
  obtain ⟨m, hm, htree⟩ := ht
  exact ⟨m, h.checkpointManifest hs hs' hm, IsDir.mono (fun _ => h.objects.readable) htree⟩

theorem treeOf_putSnapshot (hs : Sound r S) {checkpoint tree : Id} {m : Manifest Id}
    (hm : r.checkpointManifest checkpoint = .ok m) (hok : r.putSnapshot m = .ok (tree, r')) :
    TreeOf r' checkpoint tree := by
  obtain ⟨hl, hs'⟩ := putSnapshot_sound hs hok
  unfold putSnapshot at hok
  obtain ⟨_, _, h₁⟩ := except_bind_eq_ok.mp hok
  obtain ⟨⟨root, t⟩, hbuild, hpure⟩ := except_bind_eq_ok.mp h₁
  obtain ⟨rfl, rfl⟩ := Prod.mk.inj (Except.ok.inj hpure)
  obtain ⟨_, _, htree⟩ := build_sound hs hbuild
  exact ⟨m, hl.checkpointManifest hs hs' hm, htree⟩

end Repository

/-! ### What a publication writes -/

namespace Repository
variable {r r' : Repository Id} {S : VersionNumber → Manifest Id} {call : PublishCall Id}
  {receipt : PublicationReceipt Id}

theorem Publishes.committed (h : Publishes r call receipt r') (hs : Sound r S) : ∃ plan outcome,
    Fits r S call plan ∧ Committed r call plan outcome r' ∧ receipt = call.receipt plan outcome := by
  obtain ⟨plan, hprepare, hcommit⟩ := h.exists_plan
  obtain ⟨hcurrent, outcome, hcommitted, hreceipt, _⟩ := of_commitIn hcommit
  have hplanned : Planned r call plan := ⟨r, S, hs, .refl r, hprepare⟩
  exact ⟨plan, outcome, hplanned.fits hs hcurrent, hcommitted, hreceipt⟩

/-- The receipt is the call's. -/
theorem Publishes.named (h : Publishes r call receipt r') (hn : r.Hosted) :
    receipt.operation = call.operation ∧ receipt.expected = call.expected ∧
      receipt.attribution = call.attribution := by
  obtain ⟨S, hs⟩ := hn.sound
  obtain ⟨plan, outcome, _, _, rfl⟩ := h.committed hs
  exact ⟨rfl, rfl, rfl⟩

/-- The receipt is stored. -/
theorem Publishes.publication (h : Publishes r call receipt r') (hn : r.Hosted) :
    r'.publication call.operation = .ok (some receipt) := by
  obtain ⟨S, hs⟩ := hn.sound
  obtain ⟨plan, outcome, hfits, hcommitted, rfl⟩ := h.committed hs
  exact hcommitted.publication hfits hs

/-- No other operation gets a receipt. -/
theorem Publishes.other (h : Publishes r call receipt r') (hn : r.Hosted) {op : OperationId}
    (hop : op ≠ call.operation) : r'.publications.get? op = r.publications.get? op := by
  obtain ⟨S, hs⟩ := hn.sound
  obtain ⟨plan, outcome, _, hcommitted, rfl⟩ := h.committed hs
  obtain ⟨blob, hpubs, _⟩ := hcommitted.publications
  rw [hpubs, SortedMap.get?_insert, if_neg hop.symm]

/-- The World gets the version of a success, and nothing otherwise. -/
theorem Publishes.versions (h : Publishes r call receipt r') (hn : r.Hosted) :
    (∃ version, receipt.outcome = .published version ∧ r'.versions = r.versions ++ [version] ∧
        version.operation = some call.operation ∧
        r.layerStateIn call.expected.layer = .ok (.active call.expected)) ∨
      (∀ version, receipt.outcome ≠ .published version) ∧ r'.versions = r.versions := by
  obtain ⟨S, hs⟩ := hn.sound
  obtain ⟨plan, outcome, hfits, hcommitted, rfl⟩ := h.committed hs
  cases hcommitted.world with
  | layerStale _ hversions _ _ _ _ => exact .inr ⟨nofun, hversions⟩
  | conflict paths _ hversions _ _ _ _ => exact .inr ⟨nofun, hversions⟩
  | published composition version _ hp =>
      obtain ⟨_, hactive, _, _, _, _, _, hversion, hversions, _⟩ := hcommitted.composed hfits hs.chain
      exact .inl ⟨version, rfl, hversions, by rw [hversion]; rfl, hactive⟩

/-! ### Checkpoints read the same later -/

omit [LinearOrder Id] [Encoding Id] in
theorem checkpointIn_of_readDeep [LinearOrder Id] [Encoding Id] {id : Id} {checkpoint : LayerCheckpoint Id}
    (h : r.readDeep id = .ok checkpoint) : r.checkpointIn id = .ok checkpoint := by
  unfold readDeep readBelow at h
  obtain ⟨_, _, h₁⟩ := except_bind_eq_ok.mp h
  obtain ⟨node, hnode, h₂⟩ := except_bind_eq_ok.mp h₁
  obtain ⟨_, _, h₃⟩ := except_bind_eq_ok.mp h₂
  obtain rfl := Except.ok.inj h₃
  exact hnode

theorem Hosted.readDeep_eq_ok (hn : r.Hosted) {id : Id} {checkpoint : LayerCheckpoint Id} :
    r.readDeep id = .ok checkpoint ↔ r.checkpointIn id = .ok checkpoint := by
  obtain ⟨plans, hreach⟩ := hn
  constructor
  · exact checkpointIn_of_readDeep
  · intro h
    rw [(hreach.allDeep.deep h).readDeep_eq, h]

theorem Hosted.readDeep_later (hn : r.Hosted) (hn' : r'.Hosted) (h : Later r r') {id : Id}
    {checkpoint : LayerCheckpoint Id} (hok : r.readDeep id = .ok checkpoint) :
    r'.readDeep id = .ok checkpoint := by
  obtain ⟨S, hs⟩ := hn.sound
  obtain ⟨S', hs'⟩ := hn'.sound
  exact hn'.readDeep_eq_ok.mpr (h.checkpointIn hs.chain hs'.chain id _ (hn.readDeep_eq_ok.mp hok))

/-! ### A first publication -/

/-- In a new repository a Layer can be created, and then published without changes. -/
theorem exists_publishes (identity : Id) (layer : LayerId) (op : OperationId) : ∃ head r,
    Created (Repository.initial identity) layer
      ⟨identity, 0, versionId none emptyId SparseChanges.empty⟩ head r ∧ r.Hosted ∧
    ∃ version r', Publishes r ⟨op, head, .human⟩
      ⟨op, head, .human, ⟨0, versionId none emptyId SparseChanges.empty, emptyId, none⟩, [], .published version⟩ r' := by
  obtain ⟨head, r, plan, version, r', hcreated, hreach, hprepare, hcommit, hcommitted⟩ :=
    System.exists_first_publication identity layer op
  obtain ⟨S, hs⟩ := hreach.sound.repository
  obtain ⟨hfresh, _, _, hwarnings, hagainst, _⟩ := of_prepareIn hprepare
  have hlast := hs.chain.headIn_eq_ok.mp hagainst
  have hsame : plan.against = ⟨0, versionId none emptyId SparseChanges.empty, emptyId, none⟩ := by
    rw [hcreated.versions] at hlast
    exact (Option.some.inj hlast).symm
  have hnone : plan.warnings = [] := (Except.ok.inj hwarnings).symm
  have hpublish : r.publishLayer ⟨op, head, .human⟩ allow 1 =
      .ok (PublishCall.receipt ⟨op, head, .human⟩ plan (.published version), r') := by
    unfold publishLayer
    rw [except_bind_of_ok hprepare]
    show (r.commitIn _ plan allow >>= _) = _
    rw [except_bind_of_ok hcommit]
    rfl
  refine ⟨head, r, hcreated, ⟨[], hreach⟩, version, r', hfresh, ?_⟩
  rw [hpublish]
  unfold PublishCall.receipt
  rw [hsame, hnone]

end Repository

end Javelin
