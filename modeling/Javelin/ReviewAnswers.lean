import Javelin.PublishAnswers
import Javelin.Restores

/-! # Answers to review messages

How review messages run to their ends: `exists_answers_openRequest` opens a request on a Layer without changes,
and `exists_answers_publishRequest` publishes its revision.  `exists_publishable` is a node with such a request. -/

namespace Javelin

open KeyedList Collaboration Identity Protocol Codec Repository

variable {Id : Type} [LinearOrder Id] [Encoding Id]

namespace Repository
variable {r : Repository Id} {S : VersionNumber → Manifest Id}

theorem exists_putSnapshot_empty (hs : Sound r S) {m : Manifest Id} (hempty : m.flat = fun _ => none) :
    ∃ tree objects, r.putSnapshot m = .ok (tree, { r with objects := objects }) := by
  obtain ⟨tree, t, hbuild, _⟩ := Trees.Post.exists_ok ((hs.chain.honest.open_write.post_build m).mono
    (fun _ _ _ h => h) (fun e he => tooTall_empty (fun _ => rfl) (hempty ▸ he.2)))
  refine ⟨tree, t.store.objects, ?_⟩
  unfold putSnapshot
  rw [except_bind_of_ok (Objects.validateEntries_eq_ok.mpr ?_), except_bind_of_ok hbuild]
  · rfl
  · intro e he
    obtain ⟨⟨p, e'⟩, hp, rfl⟩ := List.mem_map.mp he
    have hget : m.flat p.names = some e' := SortedMap.get?_eq_some.mpr hp
    rw [hempty] at hget
    cases hget

end Repository

namespace FileWorldLog

open Reviewing

variable {n : FileWorldLog Id}

/-- A checkpoint without changes over the first version. -/
structure Blank (r : Repository Id) (id : Id) : Prop where
  read : ∃ checkpoint, r.checkpointIn id = .ok checkpoint ∧ checkpoint.base.version = 0 ∧
    checkpoint.changes = SparseChanges.empty

theorem exists_answers_checkpointTree {id : Id} (hn : n.repo.Hosted) (hblank : Blank n.repo id) :
    ∃ tree objects, Quiet n.repo { n.repo with objects := objects } ∧
      (Checks.checkpointTree id).Answers n tree { n with repo := { n.repo with objects := objects } } := by
  obtain ⟨checkpoint, hread, hbase, hchanges⟩ := hblank.read
  obtain ⟨S, hs⟩ := hn.sound
  obtain ⟨m, hm, hflat⟩ := hs.exists_checkpointManifest ((checkpointIn_eq_ok hs.chain).mp hread)
  have hempty : m.flat = fun _ => none := by
    rw [hflat, hbase, hs.chain.genesis, hchanges]
    rfl
  obtain ⟨tree, objects, hok⟩ := exists_putSnapshot_empty hs hempty
  exact ⟨tree, objects, quiet_putSnapshot hok, answers_native_bind.mpr ⟨m, hm, answers_store.mpr ⟨_, hok, rfl⟩⟩⟩

/-! ### Opening a request -/

omit [Encoding Id] in
/-- A principal with a role opens a new request. -/
theorem exists_apply_open {permissions : AppliedPermissions} {op : OperationId} {actor : PrincipalId}
    {revision : RevisionRef Id} {id : RequestId} (hrole : permissions.role actor ≠ none) :
    (Review.new permissions.repository id).apply ⟨op, actor, .open revision⟩ permissions =
      .ok ⟨⟨permissions.repository, id, some actor, .open, permissions.epoch, [⟨1, revision, []⟩], [],
        [⟨op, actor, .open revision⟩]⟩, false⟩ := by
  unfold Review.apply Review.check Review.checkPermissions Review.transition
  simp only [Review.new, ne_eq, not_true, if_false, not_lt_zero, List.find?_nil, hrole]
  rfl

variable [IdBytes Id]

theorem exists_answers_openRequest {caller : Caller} {grant : Grant} {permissions : AppliedPermissions}
    {actor : PrincipalId} {op : OperationId} {id : RequestId} {layer : LayerId} {checkpoint : Id}
    (hauthorize : caller.authorize .reviewWrite (some layer.text) = .ok (grant, permissions))
    (hactor : principal grant = .ok actor) (hrole : permissions.role actor ≠ none) (hn : n.repo.Hosted)
    {state : LayerState Id} (hstate : n.repo.layerStateIn layer = .ok state) (hblank : Blank n.repo checkpoint)
    (hrows : ∀ row ∈ n.rows, row.request ≠ id ∧ row.command.operation ≠ op) (hnew : n.requests.get? id = none) :
    ∃ tree objects, Quiet n.repo { n.repo with objects := objects } ∧
      (openRequest caller op id layer checkpoint 0).Answers n (.accepted 1) { n with
      repo := { n.repo with objects := objects }
      requests := n.requests.insert id layer.text
      rows := n.rows ++ [⟨id, permissions.epoch, ⟨op, actor, .open ⟨0, checkpoint, tree, none⟩⟩, .accepted 1⟩] } := by
  obtain ⟨tree, objects, hquiet, htree⟩ := exists_answers_checkpointTree hn hblank
  obtain ⟨stored, hread, hbase, _⟩ := hblank.read
  refine ⟨tree, objects, hquiet, ?_⟩
  have href : (revisionRef checkpoint 0).Answers n (.ok ⟨0, checkpoint, tree, none⟩)
      { n with repo := { n.repo with objects := objects } } := by
    refine answers_tryNative_bind.mpr ?_
    rw [hn.readDeep_eq_ok.mpr hread]
    simp only [hbase, ne_eq, not_true, if_false]
    exact (Durable.answers_bind_of htree).mpr (Durable.answers_pure.mpr ⟨rfl, rfl⟩)
  generalize hn₁ : ({ n with repo := { n.repo with objects := objects } } : FileWorldLog Id) = n₁ at href
  have hrows₁ : n₁.rows = n.rows := by rw [← hn₁]
  have hrequests₁ : n₁.requests = n.requests := by rw [← hn₁]
  have hnone : n₁.rows.filter (fun row => decide (row.request = id)) = [] := by
    rw [hrows₁]
    exact List.filter_eq_nil_iff.mpr (fun row hm => by simp [(hrows row hm).1])
  have hrestore : restore n₁ permissions.repository id = .ok (Review.new permissions.repository id) := by
    unfold restore
    rw [hnone]
    rfl
  have hrecorded : recorded n₁ op = none := by
    unfold recorded
    rw [hrows₁]
    exact List.find?_eq_none.mpr (fun row hm => by simp [(hrows row hm).2])
  have hdecide : (decideCommand permissions (Review.new permissions.repository id) id
      ⟨op, actor, .open ⟨0, checkpoint, tree, none⟩⟩).Answers n₁ (.accepted ⟨permissions.repository, id, some actor,
        .open, permissions.epoch, [⟨1, ⟨0, checkpoint, tree, none⟩, []⟩], [],
        [⟨op, actor, .open ⟨0, checkpoint, tree, none⟩⟩]⟩) n₁ :=
    answers_decideCommand.mpr ⟨rfl, hrecorded, _, exists_apply_open hrole, rfl⟩
  unfold openRequest
  rw [answers_encoded_bind]
  refine ⟨_, hauthorize, ?_⟩
  simp only [answers_encoded_bind, hactor, Except.ok.injEq, exists_eq_left', answers_tryNative_bind, hstate]
  rw [Durable.answers_bind_of href]
  refine Durable.answers_read_bind.mpr ⟨_, hrestore, ?_⟩
  refine answers_native_bind.mpr ⟨Review.new permissions.repository id, rfl, ?_⟩
  rw [Durable.answers_bind_of hdecide]
  refine Durable.answers_bind.mpr ⟨(), _, ?_, Durable.answers_pure.mpr ⟨rfl, rfl⟩⟩
  refine Durable.answers_transact.mpr ?_
  simp only [hrequests₁, hnew, ne_eq, not_true, if_false]
  rw [← hn₁]
  rfl

/-! ### Publishing its revision -/

omit [IdBytes Id] in
/-- A Layer without events is unknown. -/
theorem layerStateIn_of_empty {r : Repository Id} {S : VersionNumber → Manifest Id} (hs : Repository.Sound r S)
    {layer : LayerId} (hempty : ∀ k, (r.events layer).get? k = none) :
    r.layerStateIn layer = .error (.invalidInput "unknown Layer") := by
  have hnone : (r.events layer).toList = [] := by
    rw [List.eq_nil_iff_forall_not_mem]
    intro e he
    have hget := SortedMap.get?_eq_some.mpr he
    rw [hempty] at hget
    cases hget
  rw [layerStateIn_of_open (hs.successOf_of_empty hempty)]
  unfold Repository.latestEventStateIn Repository.latestIn
  rw [hnone]
  rfl

omit [IdBytes Id] in
/-- A clone of a checkpoint without changes is published. -/
theorem exists_published_clone {r : Repository Id} (hn : r.Hosted) {layer : LayerId} {id : Id} {op : OperationId}
    {world : WorldVersion Id} (hblank : Blank r id) (hempty : ∀ k, (r.events layer).get? k = none)
    (hunused : r.publications.get? op = none) (hunowned : r.attempts.get? op = none)
    (hhead : r.versions.getLast? = some world) (hroom : world.number < MAX_VERSION) :
    ∃ head r₁ receipt version r₂, r.cloneLayer layer id = .ok (head, r₁) ∧ Quiet r r₁ ∧ r₁.Hosted ∧
      Publishes r₁ ⟨op, head, .human⟩ receipt r₂ ∧ receipt.outcome = .published version ∧
      head.layer = layer ∧ head.checkpoint = id := by
  obtain ⟨checkpoint, hread, hbase, hchanges⟩ := hblank.read
  obtain ⟨S, hs⟩ := hn.sound
  obtain ⟨r₁, hclone, hactive, hread₁, hversions, hattempts, hpublications⟩ := exists_cloneLayer hs hread hempty
  have hquiet := quiet_cloneLayer hclone
  have hn₁ := hn.quiet hquiet
  obtain ⟨S₁, hs₁⟩ := hn₁.sound
  obtain ⟨plans, hreach⟩ := hn₁
  have hunused₁ : r₁.publications.get? op = none := by rw [hpublications, hunused]
  have hunowned₁ : r₁.attempts.get? op = none := by rw [hattempts, hunowned]
  obtain ⟨plan, version, r₂, hprepare, hcommit, _⟩ : ∃ plan version r₂,
      r₁.prepareIn ⟨op, ⟨r.identity, layer, 0, id⟩, .human⟩ = .ok (.advance plan) ∧
      r₁.commitIn ⟨op, ⟨r.identity, layer, 0, id⟩, .human⟩ plan allow = .ok (some (_, r₂)) ∧ _ :=
    exists_publish_unchanged hs₁ hreach.indexed hunused₁ hunowned₁ hactive rfl rfl (by rw [hversions, hhead]) hread₁
      hchanges (by rw [hbase]; exact Nat.zero_le _) rfl hroom
  refine ⟨_, r₁, _, version, r₂, hclone, hquiet, ⟨plans, hreach⟩, ⟨?_, publishLayer_of_commitIn hprepare hcommit 0⟩,
    rfl, rfl, rfl⟩
  rw [hpublications]
  exact hunused

omit [Encoding Id] [IdBytes Id] in
/-- A maintainer publishes a request that needs no approvals. -/
theorem exists_apply_publish {permissions : AppliedPermissions} {op op' : OperationId} {actor : PrincipalId}
    {revision : RevisionRef Id} {id : RequestId} (hrole : permissions.role actor = some .maintain)
    (happrovals : permissions.requiredApprovals = 0) (hop : op' ≠ op) : ∃ applied,
      (⟨permissions.repository, id, some actor, .open, permissions.epoch, [⟨1, revision, []⟩], [],
        [⟨op, actor, .open revision⟩]⟩ : Review Id).apply ⟨op', actor, .publish 1 revision⟩ permissions =
          .ok applied := by
  have hmaintain : permissions.has actor .maintain = true := by
    unfold AppliedPermissions.has
    rw [hrole]
    rfl
  have hpublishable : ∃ p, (⟨permissions.repository, id, some actor, .open, permissions.epoch,
      [⟨1, revision, []⟩], [], [⟨op, actor, .open revision⟩]⟩ : Review Id).checkPublishable 1 revision permissions
        actor = .ok p := by
    refine ⟨⟨1, []⟩, ?_⟩
    unfold Review.checkPublishable Review.checkPermissions
    simp only [ne_eq, not_true, if_false, lt_irrefl, hrole, hmaintain, Bool.true_eq_false, reduceCtorEq]
    have hcurrent : (⟨permissions.repository, id, some actor, .open, permissions.epoch, [⟨1, revision, []⟩], [],
      [⟨op, actor, .open revision⟩]⟩ : Review Id).openRevision = .ok ⟨1, revision, []⟩ := rfl
    rw [except_bind_of_ok rfl, except_bind_of_ok hcurrent]
    simp only [not_true, if_false, happrovals, not_lt_zero, List.filter_nil]
  obtain ⟨p, hp⟩ := hpublishable
  refine ⟨⟨⟨permissions.repository, id, some actor, .published, permissions.epoch, [⟨1, revision, []⟩], [],
    [⟨op, actor, .open revision⟩, ⟨op', actor, .publish 1 revision⟩]⟩, false⟩, ?_⟩
  unfold Review.apply
  rw [if_neg (by simp)]
  rw [show List.find? (fun c => decide (c.operation = op')) [(⟨op, actor, .open revision⟩ : Command Id)] = none from
    List.find?_eq_none.mpr (fun c hc => by simp [List.mem_singleton.mp hc, hop.symm])]
  have hcheck : (⟨permissions.repository, id, some actor, .open, permissions.epoch,
      [⟨1, revision, []⟩], [], [⟨op, actor, .open revision⟩]⟩ : Review Id).check
        ⟨op', actor, .publish 1 revision⟩ permissions = .ok () := by
    unfold Review.check Review.checkPermissions
    simp only [ne_eq, not_true, if_false, lt_irrefl, hrole, reduceCtorEq, hp]
    rfl
  simp only
  rw [except_bind_of_ok hcheck]
  rfl

/-- The one revision of a request that was just opened is published.  The node may stop before the record. -/
theorem exists_answers_publishRequest {caller : Caller} {grant : Grant} {permissions : AppliedPermissions}
    {actor : PrincipalId} {op op' : OperationId} {id : RequestId} {revision : RevisionRef Id} {reply : Reply Id}
    {world : WorldVersion Id}
    (hauthorize : caller.authorize .publish (n.requests.get? id) = .ok (grant, permissions))
    (hactor : principal grant = .ok actor) (hrole : permissions.role actor = some .maintain)
    (happrovals : permissions.requiredApprovals = 0) (hepoch : permissions.epoch < 2 ^ 63)
    (hknown : n.requests.get? id ≠ none)
    (hrows : n.rows = [⟨id, permissions.epoch, ⟨op, actor, .open revision⟩, reply⟩]) (hop : op' ≠ op)
    (hn : n.repo.Hosted) (hbase : revision.base = 0) (hblank : Blank n.repo revision.checkpoint)
    (hpolicy : n.policy = []) (hempty : ∀ k, (n.repo.events (revisionLayer Id id 1)).get? k = none)
    (hunused : n.repo.publications.get? op' = none) (hunowned : n.repo.attempts.get? op' = none)
    (hhead : n.repo.versions.getLast? = some world) (hroom : world.number < MAX_VERSION) :
    ∃ (version : WorldVersion Id) (receipt : PublicationReceipt Id) (r : Repository Id), Later n.repo r ∧
      r.Hosted ∧ r.publication op' = .ok (some receipt) ∧ receipt.outcome = .published version ∧
      r.versions = n.repo.versions ++ [version] ∧
      (publishRequest caller op' id 1 0).Leaves n { n with repo := r } ∧
      (publishRequest caller op' id 1 0).Answers n
        (.publishOutcome (.published version.number version.id version.tree))
        { n with repo := r, rows := n.rows ++ [⟨id, permissions.epoch, ⟨op', actor, .publish 1 revision⟩,
          .publishOutcome (.published version.number version.id version.tree)⟩] } := by
  obtain ⟨S, hs⟩ := hn.sound
  obtain ⟨head, r₁, receipt, version, r, hclone, hquiet, hn₁, hp, houtcome, hlayer, hcheckpoint⟩ :=
    exists_published_clone hn hblank hempty hunused hunowned hhead hroom
  obtain ⟨applied, happly⟩ : ∃ applied, (⟨permissions.repository, id, some actor, .open, permissions.epoch,
      [⟨1, revision, []⟩], [], [⟨op, actor, .open revision⟩]⟩ : Review Id).apply ⟨op', actor, .publish 1 revision⟩
        permissions = .ok applied := exists_apply_publish hrole happrovals hop
  have hrestore : restore n permissions.repository id = .ok ⟨permissions.repository, id, some actor, .open,
      permissions.epoch, [⟨1, revision, []⟩], [], [⟨op, actor, .open revision⟩]⟩ := by
    unfold restore
    rw [hrows, List.filter_singleton, decide_eq_true rfl]
    show (replayRow _ _ >>= fun review => pure review) = _
    unfold replayRow
    rw [if_neg (not_le.mpr hepoch)]
    rfl
  have hrecorded : recorded n op' = none := by
    unfold recorded
    rw [hrows]
    exact List.find?_eq_none.mpr (fun row hm => by simp [List.mem_singleton.mp hm, hop.symm])
  have hgate : (publishGate op' revision.tree permissions).Answers n none n := by
    refine answers_native_bind.mpr ⟨none, publication_eq_none.mpr hunused, ?_⟩
    refine answers_look.mpr ⟨?_, rfl⟩
    unfold Checks.unmet
    rw [hpolicy]
    rfl
  have hhead' : (revisionHead (revisionLayer Id id 1) revision.checkpoint).Answers n (.ok head)
      { n with repo := r₁ } := by
    refine answers_tryNative_bind.mpr ?_
    rw [layerStateIn_of_empty hs hempty]
    exact (Durable.answers_bind_of (answers_store.mpr ⟨r₁, hclone, rfl⟩)).mpr (Durable.answers_pure.mpr ⟨rfl, rfl⟩)
  have hpublish : (publishCheckpoint op' id 1 revision).Answers n
      (.published version.number version.id version.tree) { n with repo := r } := by
    refine answers_native_bind.mpr ⟨none, publication_eq_none.mpr hunused, ?_⟩
    rw [Durable.answers_bind_of hhead']
    refine Durable.answers_bind.mpr ⟨.ok receipt, _, answers_tryStore.mpr (.inl ⟨receipt, r, rfl, hp.published, rfl⟩), ?_⟩
    refine Durable.answers_pure.mpr ⟨?_, rfl⟩
    rw [houtcome]
    rfl
  have hauthorized : (target caller .publish id).Answers n (grant, permissions, _) n :=
    answers_target.mpr ⟨rfl, hauthorize, hknown, hrestore⟩
  have hdecide : (decideCommand permissions _ id ⟨op', actor, .publish 1 revision⟩).Answers n
      (.accepted applied.review) n := answers_decideCommand.mpr ⟨rfl, hrecorded, applied, happly, rfl⟩
  have hversions : r.versions = n.repo.versions ++ [version] := by
    obtain ⟨version', houtcome', hversions, _⟩ | ⟨hnone, _⟩ := hp.versions hn₁
    · obtain rfl := PublishOutcome.published.inj (houtcome.symm.trans houtcome')
      rw [hversions, hquiet.versions]
    · exact absurd houtcome (hnone version)
  refine ⟨version, receipt, r, (hquiet.later hn).trans (hp.later hn₁), hn₁.publishes hp, hp.publication hn₁,
    houtcome, hversions, ?_, ?_⟩
  · unfold publishRequest
    refine Durable.leaves_bind.mpr (.inr ⟨_, n, hauthorized, ?_⟩)
    refine leaves_encoded_bind.mpr (.inr ⟨actor, hactor, ?_⟩)
    simp only [pinned, List.find?_cons, decide_true, Option.map_some, hbase, ne_eq, not_true, if_false]
    refine Durable.leaves_bind.mpr (.inr ⟨_, n, hdecide, ?_⟩)
    refine Durable.leaves_bind.mpr (.inr ⟨_, n, hgate, ?_⟩)
    exact Durable.leaves_bind.mpr (.inr ⟨_, _, hpublish, leaves_self _⟩)
  · unfold publishRequest
    rw [Durable.answers_bind_of hauthorized]
    refine answers_encoded_bind.mpr ⟨actor, hactor, ?_⟩
    simp only [pinned, List.find?_cons, decide_true, Option.map_some, hbase, ne_eq, not_true, if_false]
    rw [Durable.answers_bind_of hdecide]
    unfold publishAccepted
    rw [Durable.answers_bind_of hgate]
    simp only
    rw [Durable.answers_bind_of hpublish]
    exact Durable.answers_bind.mpr ⟨(), _, Durable.answers_transact.mpr rfl, Durable.answers_pure.mpr ⟨rfl, rfl⟩⟩

/-! ### A request that can be published -/

theorem opaqueByte_c : opaqueByte 99 = true := rfl

/-- A principal who may publish alone. -/
def soleMaintainer : AppliedPermissions where
  repository := ⟨[114], opaqueId_r⟩
  epoch := 0
  visibility := .«private»
  roles := SortedMap.ofList [(letter 99 opaqueByte_c, .maintain)]
  requiredApprovals := 0
  small := zero_small

/-- The maintainer's caller. -/
def maintainer : Caller := ⟨⟨fun _ _ _ => .ok ⟨some [99], .maintain, []⟩, some soleMaintainer⟩, some [116], 0⟩

omit [LinearOrder Id] in
theorem isReviewLayer_revisionLayer (id : RequestId) (index : ℕ) :
    isReviewLayer (revisionLayer Id id index) = true :=
  List.isPrefixOf_iff_prefix.mpr (List.prefix_append _ _)

omit [LinearOrder Id] in
theorem layer_ne_revisionLayer {layer : LayerId} {id : RequestId} {index : ℕ}
    (h : isReviewLayer layer = false) : layer ≠ revisionLayer Id id index := by
  rintro rfl
  cases h.symm.trans (isReviewLayer_revisionLayer id index)

/-- A request on a new Layer, which any other operation publishes. -/
theorem exists_publishable {P : FileWorldLog ℕ → Input ℕ → Prop} {head : LayerHead ℕ} {r : Repository ℕ}
    {decided : SortedMap OperationId (PublishLayer ℕ × Codec.PublishOutcome ℕ)}
    (hcreated : Created (Repository.initial 0) ⟨[97]⟩ ⟨0, 0, versionId none emptyId SparseChanges.empty⟩ head r)
    (hreach : Reachable P { initial 0 with repo := r, decided := decided })
    (hP : ∀ n, P n (.review maintainer (.openRequest ⟨[49]⟩ ⟨[114], opaqueId_r⟩ ⟨[97]⟩ head.checkpoint 0))) :
    ∃ (n : FileWorldLog ℕ) (revision : RevisionRef ℕ), Reachable P n ∧ n.decided = decided ∧
      n.requests = SortedMap.empty.insert ⟨[114], opaqueId_r⟩ [97] ∧
      n.rows = [⟨⟨[114], opaqueId_r⟩, 0, ⟨⟨[49]⟩, letter 99 opaqueByte_c, .open revision⟩, .accepted 1⟩] ∧
      n.repo.layerStateIn ⟨[97]⟩ = .ok (.active head) ∧ Blank n.repo revision.checkpoint ∧
      ∀ op ≠ ⟨[49]⟩, ∃ (version : WorldVersion ℕ) (receipt : PublicationReceipt ℕ) (r' : Repository ℕ),
        Later n.repo r' ∧ r'.Hosted ∧ r'.publication op = .ok (some receipt) ∧ receipt.outcome = .published version ∧
        r'.versions = n.repo.versions ++ [version] ∧
        (publishRequest maintainer op ⟨[114], opaqueId_r⟩ 1 0).Leaves n { n with repo := r' } ∧
        (publishRequest maintainer op ⟨[114], opaqueId_r⟩ 1 0).Answers n
          (.publishOutcome (.published version.number version.id version.tree))
          { n with repo := r', rows := n.rows ++ [⟨⟨[114], opaqueId_r⟩, 0, ⟨op, letter 99 opaqueByte_c, .publish 1 revision⟩,
            .publishOutcome (.published version.number version.id version.tree)⟩] } := by
  have hhosted : r.Hosted := hreach.hosted
  have hblank : Blank r head.checkpoint := by
    obtain ⟨checkpoint, hread, hbase, hchanges⟩ := hcreated.unchanged
    exact ⟨checkpoint, hread, by rw [hbase], hchanges⟩
  have hauthorize : maintainer.authorize .reviewWrite (some (⟨[97]⟩ : LayerId).text) =
      .ok (⟨some [99], .maintain, []⟩, soleMaintainer) := rfl
  have hrole : soleMaintainer.role (letter 99 opaqueByte_c) ≠ none := by decide
  have hrows : ∀ row ∈ ([] : List (ReviewRow ℕ)), row.request ≠ (⟨[114], opaqueId_r⟩ : RequestId) ∧
      row.command.operation ≠ (⟨[49]⟩ : OperationId) := fun row hm => by cases hm
  obtain ⟨tree, objects, hquiet, hopen⟩ := exists_answers_openRequest
    (n := { initial 0 with repo := r, decided := decided }) hauthorize rfl hrole hhosted hcreated.active hblank hrows
    rfl
  obtain ⟨identity, hrun⟩ := hreach
  have hreach' : Reachable P _ := ⟨identity, hrun.tail ⟨_, hP _, answers_dropped hopen⟩⟩
  have hhosted' : Repository.Hosted { r with objects := objects } := hhosted.quiet hquiet
  obtain ⟨S, hs⟩ := hhosted.sound
  obtain ⟨S', hs'⟩ := hhosted'.sound
  have hpublications : r.publications = SortedMap.empty := hcreated.publications
  have hopened : ∀ {r' : Repository ℕ}, r'.publications = SortedMap.empty → ∀ layer, r'.successOf layer = none := by
    intro r' hpublications' layer
    unfold Repository.successOf
    rw [hpublications']
    rfl
  have hblank' : Blank ({ r with objects := objects } : Repository ℕ) head.checkpoint := by
    obtain ⟨checkpoint, hread, hbase, hchanges⟩ := hblank.read
    exact ⟨checkpoint, (hquiet.later hhosted).checkpointIn hs.chain hs'.chain _ _ hread, hbase, hchanges⟩
  refine ⟨_, ⟨0, head.checkpoint, tree, none⟩, hreach', rfl, rfl, rfl, ?_, hblank', fun op hop => ?_⟩
  · have hactive := hcreated.active
    rw [layerStateIn_of_open (hopened hpublications _)] at hactive
    have hopened' : Repository.successOf { r with objects := objects } ⟨[97]⟩ = none := hopened hpublications _
    exact (layerStateIn_of_open hopened').trans hactive
  · have hauthorize' : maintainer.authorize .publish
        ((SortedMap.empty.insert (⟨[114], opaqueId_r⟩ : RequestId) [97]).get? ⟨[114], opaqueId_r⟩) =
          .ok (⟨some [99], .maintain, []⟩, soleMaintainer) := rfl
    have hmaintain : soleMaintainer.role (letter 99 opaqueByte_c) = some .maintain := by decide
    have hfirst : r.versions.getLast? = some ⟨0, versionId none emptyId SparseChanges.empty, emptyId, none⟩ := by
      rw [hcreated.versions]
      rfl
    refine exists_answers_publishRequest hauthorize' rfl hmaintain rfl (by decide) ?_ rfl hop hhosted' rfl hblank' rfl
      (fun k => ?_) ?_ ?_ hfirst ?_
    · show (SortedMap.empty.insert _ _).get? _ ≠ none
      rw [SortedMap.get?_insert, if_pos rfl]
      simp
    · show (r.events _).get? k = none
      rw [hcreated.others _ (layer_ne_revisionLayer (by decide))]
      rfl
    · show r.publications.get? op = none
      rw [hpublications]
      rfl
    · show r.attempts.get? op = none
      rw [hcreated.attempts]
      rfl
    · exact Nat.sub_pos_of_lt (Nat.one_lt_two_pow (by decide))

end FileWorldLog

end Javelin
