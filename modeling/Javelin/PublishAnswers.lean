import Javelin.ReviewWrites

/-! # Answers to publish messages

How a publish runs to its end: `answers_publishLayer` follows a new operation on a Layer that is ready.
`exists_ready` is a node with such a Layer. -/

namespace Javelin

open KeyedList Collaboration Identity Protocol Codec Repository

variable {Id : Type} [LinearOrder Id] [Encoding Id]

namespace FileWorldLog

variable {n : FileWorldLog Id} {request : PublishLayer Id}

omit [Encoding Id] in
theorem answers_settle {outcome : Codec.PublishOutcome Id} (hencode : outcome.encode = .ok ()) :
    (settle request outcome).Answers n outcome
      { n with decided := n.decided.insert request.operation (request, outcome) } := by
  refine Durable.answers_bind.mpr ⟨(), _, ?_, Durable.answers_pure.mpr ⟨rfl, rfl⟩⟩
  exact answers_encoded_bind.mpr ⟨(), hencode, answers_update.mpr rfl⟩

theorem answers_gate_of_none {checkpoint : Id} (hpolicy : n.policy = []) :
    (Checks.gate checkpoint none).Answers n none n := by
  refine answers_look_bind.mpr ?_
  rw [if_pos hpolicy]
  exact Durable.answers_pure.mpr ⟨rfl, rfl⟩

/-- A new operation on the head it names, without required checks, is published and recorded. -/
theorem answers_publishLayer (request : PublishLayer Id) {head : LayerHead Id} {receipt : PublicationReceipt Id} {r : Repository Id}
    (hencode : request.encode = .ok ()) (hreview : isReviewLayer request.layer = false)
    (hundecided : n.decided.get? request.operation = none)
    (hstate : n.repo.layerStateIn request.layer = .ok (.active head)) (hexpected : head.checkpoint = request.expected)
    (hbase : baseOf head n.repo = .ok request.base) (hpolicy : n.policy = [])
    (hp : Publishes n.repo ⟨request.operation, head, request.attribution⟩ receipt r)
    (houtcome : receipt.outcome.toWire.encode = .ok ()) :
    (publishLayer request).Answers n receipt.outcome.toWire
      { n with repo := r, decided := n.decided.insert request.operation (request, receipt.outcome.toWire) } := by
  have hdecide : (decidePublish request).Answers n receipt.outcome.toWire { n with repo := r } := by
    refine answers_tryNative_bind.mpr ?_
    rw [hstate]
    simp only [hexpected, ne_eq, not_true, if_false]
    refine answers_native_bind.mpr ⟨request.base, hbase, ?_⟩
    simp only [not_true, if_false]
    refine Durable.answers_bind.mpr ⟨none, n, answers_gate_of_none hpolicy, ?_⟩
    refine Durable.answers_bind.mpr ⟨.ok receipt, _, answers_tryStore.mpr (.inl ⟨receipt, r, rfl, hp.published, rfl⟩), ?_⟩
    exact Durable.answers_pure.mpr ⟨rfl, rfl⟩
  unfold publishLayer
  rw [if_neg (by simp [hreview])]
  refine answers_encoded_bind.mpr ⟨(), hencode, ?_⟩
  refine answers_look_bind.mpr ?_
  rw [hundecided]
  refine answers_native_bind.mpr ⟨none, publication_eq_none.mpr hp.fresh, ?_⟩
  exact Durable.answers_bind.mpr ⟨_, _, hdecide, answers_settle houtcome⟩

variable [IdBytes Id] {P : FileWorldLog Id → Input Id → Prop}

omit [Encoding Id] [IdBytes Id] in
theorem answers_dropped {α : Type} {x : NodeM Id α} {a : α} {n' : FileWorldLog Id} (h : x.Answers n a n') :
    (do let _ ← x : NodeM Id Unit).Leaves n n' :=
  Durable.leaves_bind.mpr (.inr ⟨a, n', h, Durable.leaves_pure.mpr rfl⟩)

/-- A node with a new Layer. -/
theorem exists_ready (identity : Id) (layer : LayerId) (op : OperationId)
    (hP : ∀ n, P n (.createLayer layer 0)) : ∃ (n : FileWorldLog Id) (head : LayerHead Id), Reachable P n ∧
      n = { initial identity with repo := n.repo } ∧ n.repo.layerStateIn layer = .ok (.active head) ∧
      head.layer = layer ∧ baseOf head n.repo = .ok 0 ∧
      ∃ version r', Publishes n.repo ⟨op, head, .human⟩
        ⟨op, head, .human, ⟨0, versionId none emptyId SparseChanges.empty, emptyId, none⟩, [], .published version⟩ r' := by
  obtain ⟨head, r, hcreated, hhosted, version, r', hp⟩ := exists_publishes identity layer op
  have hleaves : (Input.run (.createLayer layer 0)).Leaves (initial identity)
      { initial identity with repo := r } := by
    refine answers_dropped (a := head) ?_
    refine answers_native_bind.mpr ⟨⟨identity, 0, versionId none emptyId SparseChanges.empty⟩, rfl, ?_⟩
    exact answers_store.mpr ⟨r, hcreated.created, rfl⟩
  obtain ⟨checkpoint, hread, hcheckpoint, _⟩ := hcreated.unchanged
  have hbase : baseOf head r = .ok 0 := by
    unfold baseOf
    rw [except_bind_of_ok (hhosted.readDeep_eq_ok.mpr hread), hcheckpoint]
    rfl
  exact ⟨{ initial identity with repo := r }, head, ⟨identity, .single ⟨_, hP _, hleaves⟩⟩, rfl, hcreated.active,
    hcreated.named, hbase, version, r', hp⟩

end FileWorldLog

end Javelin
