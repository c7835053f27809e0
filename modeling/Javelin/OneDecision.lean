import Javelin.ReviewAnswers

/-! # One operation, one decision

`PublishLayer` records what it decides in `decided`, `PublishRequest` in the request's rows, and both publish
natively under the operation.  The Layer of a native receipt tells who published: only `PublishRequest` publishes
a revision's Layer (`Write.brought`).  A refusal that `PublishLayer` records has no native receipt, and
`PublishRequest` does not read `decided`.  `Separate` excludes the messages that meet such a record, and
`Reachable.one_decision` says what then holds. -/

namespace Javelin

open KeyedList Collaboration Identity Protocol Codec Repository

variable {Id : Type} [LinearOrder Id] [Encoding Id]

/-! ### Receipts later -/

namespace Repository
variable {r r' : Repository Id} {op : OperationId} {receipt : PublicationReceipt Id}

theorem publications_of_advanceToTree (hn : r.Hosted) {expected : VersionNumber} {tree : Id}
    {outcome : AdvanceOutcome Id} (hok : r.advanceToTree op expected tree = .ok (outcome, r')) :
    r'.publications = r.publications := by
  obtain ⟨S, hs⟩ := hn.sound
  obtain ⟨rfl, _⟩ | ⟨_, _, head, hhead, hadvance⟩ := of_advanceIn hs.chain hok
  · rfl
  · obtain ⟨objects, T, _, _, _, hadvanced⟩ := of_advanceNew hs.chain hhead (by simp) hadvance
    cases hadvanced <;> rfl

/-- A publication that was stored before is the same one now. -/
theorem Later.publication_of (hl : Later r r') (hn : r.Hosted) (hn' : r'.Hosted)
    (hsame : r'.publications.get? op = r.publications.get? op)
    (h : r'.publication op = .ok (some receipt)) : r.publication op = .ok (some receipt) := by
  obtain ⟨S, hs⟩ := hn.sound
  obtain ⟨S', hs'⟩ := hn'.sound
  cases hrow : r.publications.get? op with
  | none =>
      have hnone := publication_eq_none.mpr (hsame.trans hrow)
      cases hnone.symm.trans h
  | some row =>
      obtain ⟨receipt', hreceipt'⟩ := hs.receipts op row hrow
      have hok : r.publication op = .ok (some receipt') := publication_eq_ok.mpr ⟨row, hrow, hreceipt'⟩
      obtain rfl := Option.some.inj (Except.ok.inj ((hl.publication hs.chain hs'.chain hok).symm.trans h))
      exact hok

end Repository

namespace FileWorldLog

open Reviewing

variable [IdBytes Id] {P : FileWorldLog Id → Input Id → Prop} {n n' : FileWorldLog Id}

/-! ### Who published -/

/-- What brings a receipt: a `PublishLayer` to its own Layer, or a `PublishRequest` to a revision's. -/
inductive Brought (P : FileWorldLog Id → Input Id → Prop) (n : FileWorldLog Id) (op : OperationId)
    (receipt : PublicationReceipt Id) : Prop
  | layer {n₀ request} : P n₀ (.publishLayer request) → request.operation = op → n.decided.get? op = none →
      isReviewLayer request.layer = false → receipt.expected.layer = request.layer → Brought P n op receipt
  | review {n₀ caller id index base} : P n₀ (.review caller (.publishRequest op id index base)) → Since n₀ n →
      receipt.expected.layer = revisionLayer Id id index → Brought P n op receipt

/-- One write brings no receipt but by a publish message, for its operation. -/
theorem Write.brought (h : Write P n n') (hn : n.repo.Hosted) {op : OperationId} {receipt : PublicationReceipt Id}
    (hreceipt : n'.repo.publication op = .ok (some receipt)) :
    n.repo.publication op = .ok (some receipt) ∨ n.repo.publications.get? op = none ∧ Brought P n op receipt := by
  have hl := h.later hn
  have hn' := h.hosted hn
  cases h with
  | changes | policy | traces | result | decided | published | opened | reviewed => exact .inl hreceipt
  | quiet hq => exact .inl (hl.publication_of hn hn' (congrArg (·.get? op) hq.publications) hreceipt)
  | advance _ hok =>
      exact .inl (hl.publication_of hn hn' (congrArg (·.get? op) (publications_of_advanceToTree hn hok)) hreceipt)
  | @publishLayer n₀ _ request head receipt' r hinput hready hp =>
      by_cases hop : op = request.operation
      · obtain rfl := Option.some.inj (Except.ok.inj ((hop ▸ hp.publication hn).symm.trans hreceipt))
        obtain ⟨_, hexpected, _⟩ := hp.named hn
        refine .inr ⟨hop ▸ hp.fresh, .layer hinput hop.symm (hop ▸ hready.undecided) hready.unreserved ?_⟩
        rw [hexpected]
        exact layer_of_active hready.active
      · exact .inl (hl.publication_of hn hn' (hp.other hn hop) hreceipt)
  | @publishRequest n₀ _ caller op' id index base actor permissions revision review head receipt' r hinput hsince
      _ _ _ hlayer _ hp =>
      by_cases hop : op = op'
      · subst hop
        obtain rfl := Option.some.inj (Except.ok.inj ((hp.publication hn).symm.trans hreceipt))
        obtain ⟨_, hexpected, _⟩ := hp.named hn
        refine .inr ⟨hp.fresh, .review hinput hsince ?_⟩
        rw [hexpected]
        exact hlayer
      · exact .inl (hl.publication_of hn hn' (hp.other hn hop) hreceipt)

omit [IdBytes Id] in
theorem of_receiptMatches {receipt : PublicationReceipt Id} {request : PublishLayer Id} {r : Repository Id}
    (h : receiptMatches receipt request r = .ok true) : receipt.expected.layer = request.layer := by
  unfold receiptMatches at h
  split at h
  · rename_i hsame
    exact hsame.1
  · cases h

/-! ### Decisions and receipts -/

/-- A recorded decision is that of its operation's receipt, if there is one. -/
def Agrees (n : FileWorldLog Id) : Prop :=
  ∀ op request outcome, n.decided.get? op = some (request, outcome) → isReviewLayer request.layer = false ∧
    ∀ receipt, n.repo.publication op = .ok (some receipt) →
      receipt.expected.layer = request.layer ∧ outcome = receipt.outcome.toWire

/-- A `PublishRequest` comes under no operation that was decided without a publication. -/
def Plain (n : FileWorldLog Id) : Input Id → Prop
  | .review _ (.publishRequest op _ _ _) => n.decided.get? op ≠ none → n.repo.publications.get? op ≠ none
  | _ => True

theorem Write.agrees (h : Write Plain n n') (hn : n.repo.Hosted) (ha : Agrees n) : Agrees n' := by
  have hkeep : n'.decided = n.decided → Agrees n' := by
    intro hsame op request outcome hdecided
    rw [hsame] at hdecided
    obtain ⟨hreview, hagrees⟩ := ha op request outcome hdecided
    refine ⟨hreview, fun receipt hreceipt => ?_⟩
    obtain hold | ⟨hfresh, hbrought⟩ := h.brought hn hreceipt
    · exact hagrees receipt hold
    cases hbrought with
    | layer _ _ hundecided =>
        rw [hundecided] at hdecided
        cases hdecided
    | @review n₀ caller id index base hinput hsince =>
        have hquiet := hsince.quiet
        obtain ⟨r, _, rfl⟩ := hsince
        have hplain : n₀.decided.get? op ≠ none → n₀.repo.publications.get? op ≠ none := hinput
        have hold : n₀.decided.get? op = some (request, outcome) := hdecided
        rw [hold, ← hquiet.publications] at hplain
        exact absurd hfresh (hplain (by simp))
  cases h with
  | quiet | advance | changes | policy | traces | result | publishLayer | publishRequest | published | opened |
    reviewed => exact hkeep rfl
  | @decided _ request outcome hreview hundecided _ hdecides =>
      intro op request' outcome' hdecided
      have hget : (n.decided.insert request.operation (request, outcome)).get? op = some (request', outcome') :=
        hdecided
      rw [SortedMap.get?_insert] at hget
      split at hget
      · rename_i hop
        subst hop
        obtain ⟨rfl, rfl⟩ := Prod.mk.inj (Option.some.inj hget)
        refine ⟨hreview, fun receipt hreceipt => ?_⟩
        have hreceipt : n.repo.publication request.operation = .ok (some receipt) := hreceipt
        cases hdecides with
        | receipt hstored hmatches =>
            obtain rfl := Option.some.inj (Except.ok.inj (hstored.symm.trans hreceipt))
            exact ⟨of_receiptMatches hmatches, rfl⟩
        | refused hfresh => cases (publication_eq_none.mpr hfresh).symm.trans hreceipt
        | layerStale hfresh => cases (publication_eq_none.mpr hfresh).symm.trans hreceipt
      · exact ha op request' outcome' hget

omit [IdBytes Id] in
theorem agrees_initial (identity : Id) : Agrees (initial identity) := by
  intro op request outcome h
  cases h

/-- A recorded decision stays. -/
theorem Write.decided_get? (h : Write P n n') {op : OperationId} {d : PublishLayer Id × Codec.PublishOutcome Id}
    (hd : n.decided.get? op = some d) : n'.decided.get? op = some d := by
  cases h with
  | quiet | advance | changes | policy | traces | result | publishLayer | publishRequest | published | opened |
    reviewed => exact hd
  | @decided _ request outcome _ hundecided =>
      show (n.decided.insert request.operation (request, outcome)).get? op = some d
      rw [SortedMap.get?_insert, if_neg]
      · exact hd
      · rintro rfl
        rw [hundecided] at hd
        cases hd

/-- The row's Publish has its receipt in the revision's Layer, and answers with it. -/
def ReceiptOf (n : FileWorldLog Id) (row : ReviewRow Id) : Prop :=
  ∀ index revision, row.command.action = .publish index revision →
    ∃ receipt, n.repo.publication row.command.operation = .ok (some receipt) ∧
      receipt.expected.layer = revisionLayer Id row.request index ∧
      row.reply = .publishOutcome receipt.outcome.toWire

/-- Every recorded Publish has its receipt. -/
def Receipted (n : FileWorldLog Id) : Prop := ∀ row ∈ n.rows, ReceiptOf n row

theorem Write.receipted (h : Write P n n') (hn : n.repo.Hosted) (hr : Receipted n) : Receipted n' := by
  have hl := h.later hn
  obtain ⟨S, hs⟩ := hn.sound
  obtain ⟨S', hs'⟩ := (h.hosted hn).sound
  have hold : ∀ row ∈ n.rows, ReceiptOf n' row := by
    intro row hm index revision haction
    obtain ⟨receipt, hreceipt, hlayer⟩ := hr row hm index revision haction
    exact ⟨receipt, hl.publication hs.chain hs'.chain hreceipt, hlayer⟩
  have hnew : ∀ row, n'.rows = n.rows ++ [row] → ReceiptOf n' row → Receipted n' := by
    intro row hrows hrow row' hm
    rw [hrows] at hm
    cases List.mem_append.mp hm with
    | inl hm => exact hold row' hm
    | inr hm => exact List.mem_singleton.mp hm ▸ hrow
  cases h with
  | quiet | advance | changes | policy | traces | result | publishLayer | decided | publishRequest => exact hold
  | published _ _ _ hreceipt hlayer _ houtcome =>
      refine hnew _ rfl (fun index' revision' haction => ?_)
      obtain ⟨rfl, _⟩ := Action.publish.inj haction
      exact ⟨_, hreceipt, hlayer, congrArg Reply.publishOutcome houtcome.symm⟩
  | opened => exact hnew _ rfl (fun _ _ haction => by cases haction)
  | reviewed _ _ _ _ _ hreviewed =>
      exact hnew _ rfl (fun index revision haction => absurd haction (hreviewed.ordinary index revision))

/-! ### Accepted Publishes -/

/-- A `PublishRequest` that may publish: its caller is authorized, and the request accepts its command. -/
structure Accepted (n : FileWorldLog Id) (caller : Caller) (op : OperationId) (id : RequestId) (index : ℕ)
    (base : VersionNumber) (permissions : AppliedPermissions) (actor : PrincipalId) (revision : RevisionRef Id)
    (review : Review Id) : Prop where
  authorized : ∃ grant, caller.authorize .publish (n.requests.get? id) = .ok (grant, permissions) ∧
    principal grant = .ok actor
  pinned : pinned review index = some revision
  base : revision.base = base
  approved : Approved n permissions id ⟨op, actor, .publish index revision⟩ index revision review

section accepted
variable {caller : Caller} {op : OperationId} {id : RequestId} {index : ℕ} {base : VersionNumber}
  {permissions : AppliedPermissions} {actor : PrincipalId} {revision : RevisionRef Id} {review : Review Id}
  {reply : Reply Id}

theorem leaves_publishRequest (h : (publishRequest caller op id index base).Leaves n n') : n' = n ∨
    ∃ permissions actor revision review, Accepted n caller op id index base permissions actor revision review ∧
      (publishAccepted permissions id ⟨op, actor, .publish index revision⟩ index revision).Leaves n n' := by
  unfold publishRequest at h
  cases Durable.leaves_bind.mp h with
  | inl htarget => exact .inl (leaves_target htarget)
  | inr hrest =>
  obtain ⟨⟨grant, permissions, review⟩, n₁, htarget, hrest⟩ := hrest
  obtain ⟨rfl, hauthorize, hknown, hrestore⟩ := answers_target.mp htarget
  simp only [leaves_encoded_bind] at hrest
  obtain rfl | ⟨actor, hactor, hrest⟩ := hrest
  · exact .inl rfl
  split at hrest
  · exact .inl (Durable.leaves_pure.mp hrest)
  rename_i revision hpinned
  split at hrest
  · exact .inl (Durable.leaves_pure.mp hrest)
  rename_i hbase
  rw [not_not] at hbase
  cases Durable.leaves_bind.mp hrest with
  | inl hdecide => exact .inl (leaves_decideCommand hdecide)
  | inr hdecided =>
  obtain ⟨decision, n₂, hdecide, hdecided⟩ := hdecided
  obtain rfl := leaves_decideCommand hdecide.leaves
  cases decision with
  | replayed reply => exact .inl (Durable.leaves_pure.mp hdecided)
  | refused code => exact .inl (Durable.leaves_pure.mp hdecided)
  | accepted next =>
      obtain ⟨_, hfresh, applied, happly, _⟩ := answers_decideCommand.mp hdecide
      exact .inr ⟨permissions, actor, revision, review, ⟨⟨grant, hauthorize, hactor⟩, hpinned, hbase,
        hfresh, hknown, hrestore, rfl, applied, happly⟩, hdecided⟩

omit [Encoding Id] [IdBytes Id] in
/-- A decision that is no acceptance: a refusal, or the reply of the same command's row. -/
theorem decided_of_decideCommand {command : Command Id} {decision : Decision Id}
    (h : (decideCommand permissions review id command).Answers n decision n') :
    (∃ code, decision = .refused code) ∨
      (∃ row ∈ n.rows, row.request = id ∧ row.command = command ∧ decision = .replayed row.reply) ∨
      ∃ next, decision = .accepted next := by
  unfold decideCommand at h
  rw [answers_look_bind] at h
  cases hrecorded : recorded n command.operation with
  | some row =>
      rw [hrecorded] at h
      simp only at h
      split at h
      · rename_i hsame
        exact .inr (.inl ⟨row, List.mem_of_find?_eq_some hrecorded, hsame.1, hsame.2, (Durable.answers_pure.mp h).1⟩)
      · exact .inl ⟨_, (Durable.answers_pure.mp h).1⟩
  | none =>
      rw [hrecorded] at h
      simp only at h
      split at h
      · exact .inr (.inr ⟨_, (Durable.answers_pure.mp h).1⟩)
      · exact .inl ⟨_, (Durable.answers_pure.mp h).1⟩
      · exact absurd h Durable.answers_fail

theorem answers_publishRequest (h : (publishRequest caller op id index base).Answers n reply n') :
    n' = n ∧ (∃ code, reply = .publishOutcome (.refused code)) ∨
    n' = n ∧ (∃ row ∈ n.rows, row.request = id ∧ row.command.operation = op ∧
      (∃ revision, row.command.action = .publish index revision) ∧ reply = row.reply) ∨
    ∃ permissions actor revision review, Accepted n caller op id index base permissions actor revision review ∧
      (publishAccepted permissions id ⟨op, actor, .publish index revision⟩ index revision).Answers n reply n' := by
  unfold publishRequest at h
  obtain ⟨⟨grant, permissions, review⟩, n₁, htarget, hrest⟩ := Durable.answers_bind.mp h
  obtain ⟨rfl, hauthorize, hknown, hrestore⟩ := answers_target.mp htarget
  simp only [answers_encoded_bind] at hrest
  obtain ⟨actor, hactor, hrest⟩ := hrest
  split at hrest
  · obtain ⟨rfl, hsame⟩ := Durable.answers_pure.mp hrest
    exact .inl ⟨hsame, _, rfl⟩
  rename_i revision hpinned
  split at hrest
  · obtain ⟨rfl, hsame⟩ := Durable.answers_pure.mp hrest
    exact .inl ⟨hsame, _, rfl⟩
  rename_i hbase
  rw [not_not] at hbase
  obtain ⟨decision, n₂, hdecide, hdecided⟩ := Durable.answers_bind.mp hrest
  obtain rfl := leaves_decideCommand hdecide.leaves
  obtain ⟨code, rfl⟩ | ⟨row, hrow, hid, hcommand, rfl⟩ | ⟨next, rfl⟩ := decided_of_decideCommand hdecide
  · obtain ⟨rfl, hsame⟩ := Durable.answers_pure.mp hdecided
    exact .inl ⟨hsame, _, rfl⟩
  · obtain ⟨rfl, hsame⟩ := Durable.answers_pure.mp hdecided
    refine .inr (.inl ⟨hsame, row, hrow, hid, ?_, ⟨revision, ?_⟩, rfl⟩)
    · rw [hcommand]
    · rw [hcommand]
  · obtain ⟨_, hfresh, applied, happly, _⟩ := answers_decideCommand.mp hdecide
    exact .inr (.inr ⟨permissions, actor, revision, review, ⟨⟨grant, hauthorize, hactor⟩, hpinned, hbase,
      hfresh, hknown, hrestore, rfl, applied, happly⟩, hdecided⟩)

theorem Accepted.answers (ha : Accepted n caller op id index base permissions actor revision review) :
    (publishRequest caller op id index base).Answers n reply n' ↔
      (publishAccepted permissions id ⟨op, actor, .publish index revision⟩ index revision).Answers n reply n' := by
  obtain ⟨⟨grant, hauthorize, hactor⟩, hpinned, hbase, happroved⟩ := ha
  obtain ⟨applied, happly⟩ := happroved.accepted
  have hdecide : (decideCommand permissions review id ⟨op, actor, .publish index revision⟩).Answers n
      (.accepted applied.review) n := answers_decideCommand.mpr ⟨rfl, happroved.fresh, applied, happly, rfl⟩
  have htarget : (target caller .publish id).Answers n (grant, permissions, review) n :=
    answers_target.mpr ⟨rfl, hauthorize, happroved.known, happroved.restored⟩
  unfold publishRequest
  rw [Durable.answers_bind_of htarget]
  simp only [answers_encoded_bind, hactor, Except.ok.injEq, exists_eq_left', hpinned, ne_eq, hbase, not_true,
    if_false]
  rw [Durable.answers_bind_of hdecide]

/-- Under a receipt of another Layer, an accepted Publish is refused as a reused operation. -/
theorem reused_of_receipt {receipt : PublicationReceipt Id} {command : Command Id}
    (hreceipt : n.repo.publication command.operation = .ok (some receipt))
    (hlayer : receipt.expected.layer ≠ revisionLayer Id id index) :
    (∀ n', (publishAccepted permissions id command index revision).Leaves n n' → n' = n) ∧
      ∀ reply n', (publishAccepted permissions id command index revision).Answers n reply n' →
        reply = .publishOutcome (.refused "operation_id_reused") := by
  have hgate : (publishGate command.operation revision.tree permissions).Answers n none n :=
    answers_native_bind.mpr ⟨_, hreceipt, Durable.answers_pure.mpr ⟨rfl, rfl⟩⟩
  have hpublish : (publishCheckpoint command.operation id index revision).Answers n
      (.refused "operation_id_reused") n := by
    refine answers_native_bind.mpr ⟨_, hreceipt, ?_⟩
    simp only [if_pos (Or.inl hlayer)]
    exact Durable.answers_pure.mpr ⟨rfl, rfl⟩
  constructor
  · intro n' h
    unfold publishAccepted at h
    cases Durable.leaves_bind.mp h with
    | inl h => exact leaves_publishGate h
    | inr h =>
        obtain ⟨refusal, n₁, hrefusal, h⟩ := h
        obtain ⟨rfl, rfl⟩ := hgate.unique hrefusal
        cases Durable.leaves_bind.mp h with
        | inl h =>
            unfold publishCheckpoint at h
            simp only [leaves_native_bind] at h
            obtain hsame | ⟨stored, hstored, h⟩ := h
            · exact hsame
            · obtain rfl := Except.ok.inj (hreceipt.symm.trans hstored)
              simp only [if_pos (Or.inl hlayer)] at h
              exact Durable.leaves_pure.mp h
        | inr h =>
            obtain ⟨outcome, n₂, houtcome, h⟩ := h
            obtain ⟨rfl, rfl⟩ := hpublish.unique houtcome
            exact Durable.leaves_pure.mp h
  · intro reply n' h
    unfold publishAccepted at h
    rw [Durable.answers_bind_of hgate] at h
    simp only at h
    rw [Durable.answers_bind_of hpublish] at h
    exact (Durable.answers_pure.mp h).1

omit [Encoding Id] [IdBytes Id] in
theorem outcome_of_answerPublish {published : Except (Error Id) (PublicationReceipt Id)}
    {outcome : Codec.PublishOutcome Id} (h : (answerPublish published).Answers n outcome n') :
    (∃ code, outcome = .refused code) ∨ ∃ receipt, published = .ok receipt ∧ outcome = receipt.outcome.toWire := by
  unfold answerPublish at h
  split at h
  · rename_i receipt
    exact .inr ⟨receipt, rfl, (Durable.answers_pure.mp h).1⟩
  · split at h
    · exact .inl ⟨_, (Durable.answers_pure.mp h).1⟩
    · exact absurd h Durable.answers_fail

/-- A published revision is answered by its receipt, or refused. -/
theorem outcome_of_publishCheckpoint {outcome : Codec.PublishOutcome Id} (hn : n.repo.Hosted)
    (h : (publishCheckpoint op id index revision).Answers n outcome n') : (∃ code, outcome = .refused code) ∨
      ∃ receipt, n'.repo.publication op = .ok (some receipt) ∧
        receipt.expected.layer = revisionLayer Id id index ∧
        receipt.expected.checkpoint = revision.checkpoint ∧ outcome = receipt.outcome.toWire := by
  unfold publishCheckpoint at h
  simp only [answers_native_bind] at h
  obtain ⟨stored, hstored, h⟩ := h
  cases stored with
  | some receipt =>
      simp only at h
      split at h
      · exact .inl ⟨_, (Durable.answers_pure.mp h).1⟩
      · rename_i hmatch
        rw [not_or, not_not, not_not] at hmatch
        obtain ⟨houtcome, rfl⟩ := Durable.answers_pure.mp h
        exact .inr ⟨receipt, hstored, hmatch.1, hmatch.2, houtcome⟩
  | none =>
      obtain ⟨answer, n₁, hhead, hrest⟩ := Durable.answers_bind.mp h
      have hsince := leaves_revisionHead hhead.leaves
      cases answer with
      | error code => exact .inl ⟨_, (Durable.answers_pure.mp hrest).1⟩
      | ok head =>
          obtain ⟨hlayer, hcheckpoint⟩ := answers_revisionHead hhead
          obtain ⟨published, n₂, hpublish, hanswer⟩ := Durable.answers_bind.mp hrest
          obtain rfl := leaves_answerPublish hanswer.leaves
          obtain hrefused | ⟨receipt, rfl, houtcome⟩ := outcome_of_answerPublish hanswer
          · exact .inl hrefused
          obtain ⟨receipt', r, hsame, hok, rfl⟩ | ⟨e, hsame, _⟩ := answers_tryStore.mp hpublish
          · obtain rfl := Except.ok.inj hsame
            have hn₁ := hn.quiet hsince.quiet
            have hp : Publishes n₁.repo ⟨op, head, .human⟩ receipt r := by
              refine ⟨?_, hok⟩
              rw [hsince.quiet.publications]
              exact publication_eq_none.mp hstored
            obtain ⟨_, hexpected, _⟩ := hp.named hn₁
            refine .inr ⟨receipt, hp.publication hn₁, ?_, ?_, houtcome⟩
            · rw [hexpected]
              exact hlayer
            · rw [hexpected]
              exact hcheckpoint
          · cases hsame

end accepted

/-! ### One decision -/

/-- `PublishLayer` decided the operation: it is recorded, or its receipt is of an ordinary Layer. -/
def ByLayer (n : FileWorldLog Id) (op : OperationId) : Prop :=
  n.decided.get? op ≠ none ∨
    ∃ receipt, n.repo.publication op = .ok (some receipt) ∧ isReviewLayer receipt.expected.layer = false

/-- `PublishRequest` decided the operation: its receipt is of a revision's Layer. -/
def ByReview (n : FileWorldLog Id) (op : OperationId) : Prop :=
  ∃ receipt, n.repo.publication op = .ok (some receipt) ∧ isReviewLayer receipt.expected.layer = true

/-- No `PublishRequest` is accepted under an operation whose `PublishLayer` was decided without a publication. -/
def Separate (n : FileWorldLog Id) : Input Id → Prop
  | .review caller (.publishRequest op id index base) =>
      n.decided.get? op ≠ none → n.repo.publications.get? op = none → ∀ permissions actor revision review,
        ¬ Accepted n caller op id index base permissions actor revision review
  | _ => True

/-- What a node decides about operations that `PublishLayer` and `PublishRequest` share. -/
structure OneDecision (n : FileWorldLog Id) : Prop where
  apart : ∀ op, ¬ (ByLayer n op ∧ ByReview n op)
  agrees : ∀ op request outcome receipt, n.decided.get? op = some (request, outcome) →
    n.repo.publication op = .ok (some receipt) → outcome = receipt.outcome.toWire
  layer : ∀ request n', (publishLayer request).Leaves n n' → ∀ op receipt,
    n'.repo.publication op = .ok (some receipt) → n.repo.publication op = .ok (some receipt) ∨
      op = request.operation ∧ isReviewLayer receipt.expected.layer = false
  layerAnswers : ∀ request outcome n', (publishLayer request).Answers n outcome n' →
    n'.decided.get? request.operation = some (request, outcome) ∨
      n' = n ∧ (outcome = .refused "layer_reserved" ∨ outcome = .refused "operation_id_reused")
  review : ∀ caller op id index base n', (publishRequest caller op id index base).Leaves n n' → ∀ op' receipt,
    n'.repo.publication op' = .ok (some receipt) → n.repo.publication op' = .ok (some receipt) ∨
      op' = op ∧ isReviewLayer receipt.expected.layer = true
  reviewAnswers : ∀ caller op id index base outcome n',
    (publishRequest caller op id index base).Answers n (.publishOutcome outcome) n' →
      (∃ code, outcome = .refused code) ∨ ∃ receipt, n'.repo.publication op = .ok (some receipt) ∧
        isReviewLayer receipt.expected.layer = true ∧ outcome = receipt.outcome.toWire
  layerFirst : ∀ op, ByLayer n op → ∀ caller id index base,
    Separate n (.review caller (.publishRequest op id index base)) →
      (∀ n', (publishRequest caller op id index base).Leaves n n' → n' = n) ∧
      ∀ reply n', (publishRequest caller op id index base).Answers n reply n' →
        ∃ code, reply = .publishOutcome (.refused code) ∧ ∀ permissions actor revision review,
          Accepted n caller op id index base permissions actor revision review → code = "operation_id_reused"
  reviewFirst : ∀ op, ByReview n op → ∀ request : PublishLayer Id, request.operation = op →
    (∀ n', (publishLayer request).Leaves n n' → n' = n) ∧
      ∀ outcome n', (publishLayer request).Answers n outcome n' →
        outcome = .refused (if isReviewLayer request.layer = true then "layer_reserved" else "operation_id_reused")

/-- A step whose inputs are separate writes nothing, or its input is plain. -/
theorem Step.plain (h : Step Separate n n') : n' = n ∨ Step Plain n n' := by
  obtain ⟨input, hinput, hleaves⟩ := h
  by_cases hplain : Plain n input
  · exact .inr ⟨input, hplain, hleaves⟩
  refine .inl ?_
  unfold Plain at hplain
  split at hplain
  · rename_i caller op id index base
    rw [Classical.not_imp, not_not] at hplain
    obtain hsame | ⟨permissions, actor, revision, review, haccepted, _⟩ :=
      leaves_publishRequest (leaves_dropped hleaves)
    · exact hsame
    · exact absurd haccepted (hinput hplain.1 hplain.2 permissions actor revision review)
  · exact absurd trivial hplain

theorem Run.plain (h : Run Separate n n') : Run Plain n n' := by
  induction h with
  | refl => exact .refl
  | tail _ hstep ih =>
      obtain rfl | hplain := hstep.plain
      · exact ih
      · exact ih.tail hplain

/-- The invariant of a separate run. -/
theorem Reachable.agrees (h : Reachable Separate n) : Agrees n ∧ Receipted n := by
  obtain ⟨identity, hrun⟩ := h
  have hplain : Reachable Plain n := ⟨identity, hrun.plain⟩
  exact ⟨hplain.invariant agrees_initial (fun _ _ hn ha hwrite => hwrite.agrees hn ha),
    hplain.invariant (fun _ row hm => by cases hm) (fun _ _ hn hr hwrite => hwrite.receipted hn hr)⟩

/-- What any writes bring: nothing, or the receipt of a publish message's operation. -/
theorem Writes.brought (h : Writes P n n') (hn : n.repo.Hosted) {op : OperationId} {receipt : PublicationReceipt Id}
    (hreceipt : n'.repo.publication op = .ok (some receipt)) :
    n.repo.publication op = .ok (some receipt) ∨ ∃ m, Brought P m op receipt := by
  induction h with
  | refl => exact .inl hreceipt
  | tail hwrites hwrite ih =>
      obtain hold | ⟨_, hbrought⟩ := hwrite.brought (Writes.hosted hwrites hn) hreceipt
      · exact ih hold
      · exact .inr ⟨_, hbrought⟩

omit [Encoding Id] [IdBytes Id] in
theorem of_answers_settle {request : PublishLayer Id} {outcome answer : Codec.PublishOutcome Id}
    (h : (settle request outcome).Answers n answer n') :
    n'.decided.get? request.operation = some (request, answer) := by
  unfold settle record at h
  obtain ⟨_, n₁, hrecord, hpure⟩ := Durable.answers_bind.mp h
  obtain ⟨rfl, rfl⟩ := Durable.answers_pure.mp hpure
  obtain ⟨_, _, hupdate⟩ := answers_encoded_bind.mp hrecord
  obtain rfl := answers_update.mp hupdate
  show (n.decided.insert request.operation (request, answer)).get? request.operation = _
  rw [SortedMap.get?_insert, if_pos rfl]

omit [IdBytes Id] in
/-- A `PublishLayer` is recorded as it is answered, or refused before its operation is decided. -/
theorem of_answers_publishLayer {request : PublishLayer Id} {outcome : Codec.PublishOutcome Id}
    (h : (publishLayer request).Answers n outcome n') :
    n'.decided.get? request.operation = some (request, outcome) ∨
      n' = n ∧ (outcome = .refused "layer_reserved" ∨ outcome = .refused "operation_id_reused") := by
  unfold publishLayer at h
  split at h
  · obtain ⟨rfl, hsame⟩ := Durable.answers_pure.mp h
    exact .inr ⟨hsame, .inl rfl⟩
  unfold publish at h
  simp only [answers_encoded_bind, answers_look_bind] at h
  obtain ⟨_, _, h⟩ := h
  cases hdecided : n.decided.get? request.operation with
  | some stored =>
      obtain ⟨recorded, outcome'⟩ := stored
      rw [hdecided] at h
      simp only at h
      split at h
      · rename_i hsame
        obtain ⟨rfl, rfl⟩ := Durable.answers_pure.mp h
        exact .inl (hsame ▸ hdecided)
      · obtain ⟨rfl, hsame⟩ := Durable.answers_pure.mp h
        exact .inr ⟨hsame, .inr rfl⟩
  | none =>
      rw [hdecided] at h
      obtain ⟨stored, _, h⟩ := answers_native_bind.mp h
      cases stored with
      | some receipt =>
          simp only [answers_native_bind] at h
          obtain ⟨matched, _, h⟩ := h
          split at h
          · exact .inl (of_answers_settle h)
          · obtain ⟨rfl, hsame⟩ := Durable.answers_pure.mp h
            exact .inr ⟨hsame, .inr rfl⟩
      | none =>
          obtain ⟨outcome', n₁, _, h⟩ := Durable.answers_bind.mp h
          exact .inl (of_answers_settle h)

omit [IdBytes Id] in
/-- A `PublishLayer` under the receipt of a revision's Layer is refused. -/
theorem refused_publishLayer {request : PublishLayer Id} {receipt : PublicationReceipt Id}
    (hundecided : n.decided.get? request.operation = none)
    (hreceipt : n.repo.publication request.operation = .ok (some receipt))
    (hlayer : isReviewLayer receipt.expected.layer = true) :
    (∀ n', (publishLayer request).Leaves n n' → n' = n) ∧
      ∀ outcome n', (publishLayer request).Answers n outcome n' →
        outcome = .refused (if isReviewLayer request.layer = true then "layer_reserved" else "operation_id_reused") := by
  unfold publishLayer
  by_cases hreview : isReviewLayer request.layer = true
  · rw [if_pos hreview, if_pos hreview]
    exact ⟨fun n' h => Durable.leaves_pure.mp h, fun outcome n' h => (Durable.answers_pure.mp h).1⟩
  have hother : receipt.expected.layer ≠ request.layer := fun hsame => hreview (hsame ▸ hlayer)
  have hmatch : receiptMatches receipt request n.repo = .ok false := by
    unfold receiptMatches
    rw [if_neg (fun h => hother h.1)]
    rfl
  rw [if_neg hreview, if_neg hreview]
  unfold publish
  constructor
  · intro n' h
    rw [leaves_encoded_bind, leaves_look_bind, hundecided] at h
    simp only [leaves_native_bind, hreceipt, Except.ok.injEq, exists_eq_left', hmatch] at h
    obtain hsame | ⟨_, _, hsame | hsame | h⟩ := h
    · exact hsame
    · exact hsame
    · exact hsame
    · exact Durable.leaves_pure.mp h
  · intro outcome n' h
    rw [answers_encoded_bind] at h
    obtain ⟨_, _, h⟩ := h
    rw [answers_look_bind, hundecided] at h
    simp only [answers_native_bind, hreceipt, Except.ok.injEq, exists_eq_left', hmatch] at h
    exact (Durable.answers_pure.mp h).1

omit [IdBytes Id] in
/-- The receipt of an operation that `PublishLayer` decided. -/
theorem ByLayer.exists_receipt {op : OperationId} (h : ByLayer n op) (ha : Agrees n) (hn : n.repo.Hosted)
    (hpublished : n.decided.get? op ≠ none → n.repo.publications.get? op ≠ none) :
    ∃ receipt, n.repo.publication op = .ok (some receipt) ∧ isReviewLayer receipt.expected.layer = false := by
  obtain hdecided | hreceipt := h
  · obtain ⟨⟨request, outcome⟩, hdecision⟩ := Option.ne_none_iff_exists'.mp hdecided
    obtain ⟨row, hrow⟩ := Option.ne_none_iff_exists'.mp (hpublished hdecided)
    obtain ⟨S, hs⟩ := hn.sound
    obtain ⟨receipt, hreceipt⟩ := hs.receipts op row hrow
    have hok : n.repo.publication op = .ok (some receipt) := publication_eq_ok.mpr ⟨row, hrow, hreceipt⟩
    obtain ⟨hreview, hagrees⟩ := ha op request outcome hdecision
    exact ⟨receipt, hok, (hagrees receipt hok).1 ▸ hreview⟩
  · exact hreceipt

omit [IdBytes Id] in
theorem not_byLayer_of_byReview {op : OperationId} (h : ByReview n op) (ha : Agrees n) : ¬ ByLayer n op := by
  obtain ⟨receipt, hreceipt, hlayer⟩ := h
  intro hby
  obtain hdecided | ⟨receipt', hreceipt', hlayer'⟩ := hby
  · obtain ⟨⟨request, outcome⟩, hdecision⟩ := Option.ne_none_iff_exists'.mp hdecided
    obtain ⟨hreview, hagrees⟩ := ha op request outcome hdecision
    rw [(hagrees receipt hreceipt).1, hreview] at hlayer
    cases hlayer
  · obtain rfl := Option.some.inj (Except.ok.inj (hreceipt.symm.trans hreceipt'))
    cases hlayer.symm.trans hlayer'

/-- A `PublishRequest` under an operation that `PublishLayer` decided is refused. -/
theorem refused_publishRequest {caller : Caller} {op : OperationId} {id : RequestId} {index : ℕ}
    {base : VersionNumber} (h : ByLayer n op) (ha : Agrees n) (hr : Receipted n) (hn : n.repo.Hosted)
    (hinput : Separate n (.review caller (.publishRequest op id index base))) :
    (∀ n', (publishRequest caller op id index base).Leaves n n' → n' = n) ∧
      ∀ reply n', (publishRequest caller op id index base).Answers n reply n' →
        ∃ code, reply = .publishOutcome (.refused code) ∧ ∀ permissions actor revision review,
          Accepted n caller op id index base permissions actor revision review → code = "operation_id_reused" := by
  have hreused : ∀ {permissions actor revision review},
      Accepted n caller op id index base permissions actor revision review →
      ∃ receipt, n.repo.publication op = .ok (some receipt) ∧ receipt.expected.layer ≠ revisionLayer Id id index := by
    intro permissions actor revision review haccepted
    obtain ⟨receipt, hreceipt, hlayer⟩ := h.exists_receipt ha hn (fun hdecided hnone =>
      hinput hdecided hnone permissions actor revision review haccepted)
    refine ⟨receipt, hreceipt, fun hsame => ?_⟩
    rw [hsame, isReviewLayer_revisionLayer] at hlayer
    cases hlayer
  constructor
  · intro n' hleaves
    obtain hsame | ⟨permissions, actor, revision, review, haccepted, hleaves⟩ := leaves_publishRequest hleaves
    · exact hsame
    · obtain ⟨receipt, hreceipt, hlayer⟩ := hreused haccepted
      exact (reused_of_receipt hreceipt hlayer).1 n' hleaves
  · intro reply n' hanswers
    have hcode : ∀ {permissions actor revision review},
        Accepted n caller op id index base permissions actor revision review →
        reply = .publishOutcome (.refused "operation_id_reused") := by
      intro permissions actor revision review haccepted
      obtain ⟨receipt, hreceipt, hlayer⟩ := hreused haccepted
      exact (reused_of_receipt hreceipt hlayer).2 reply n' (haccepted.answers.mp hanswers)
    obtain ⟨_, code, rfl⟩ | ⟨_, row, hrow, hid, rfl, ⟨revision, haction⟩, rfl⟩ |
      ⟨permissions, actor, revision, review, haccepted, _⟩ := answers_publishRequest hanswers
    · refine ⟨code, rfl, fun permissions actor revision review haccepted => ?_⟩
      cases hcode haccepted
      rfl
    · obtain ⟨receipt, hreceipt, hlayer, _⟩ := hr row hrow index revision haction
      exact absurd h (not_byLayer_of_byReview ⟨receipt, hreceipt, hlayer ▸ isReviewLayer_revisionLayer _ _⟩ ha)
    · exact ⟨_, hcode haccepted, fun _ _ _ _ _ => rfl⟩

/-- A `PublishRequest` answers a refusal or its receipt. -/
theorem outcome_of_publishRequest {caller : Caller} {op : OperationId} {id : RequestId} {index : ℕ}
    {base : VersionNumber} {outcome : Codec.PublishOutcome Id} (hr : Receipted n) (hn : n.repo.Hosted)
    (h : (publishRequest caller op id index base).Answers n (.publishOutcome outcome) n') :
    (∃ code, outcome = .refused code) ∨ ∃ receipt, n'.repo.publication op = .ok (some receipt) ∧
      isReviewLayer receipt.expected.layer = true ∧ outcome = receipt.outcome.toWire := by
  obtain ⟨_, code, hcode⟩ | ⟨rfl, row, hrow, hid, rfl, ⟨revision, haction⟩, hreply⟩ |
    ⟨permissions, actor, revision, review, haccepted, h⟩ := answers_publishRequest h
  · exact .inl ⟨code, Reply.publishOutcome.inj hcode⟩
  · obtain ⟨receipt, hreceipt, hlayer, hsame⟩ := hr row hrow index revision haction
    exact .inr ⟨receipt, hreceipt, hlayer ▸ isReviewLayer_revisionLayer _ _,
      Reply.publishOutcome.inj (hreply.trans hsame)⟩
  unfold publishAccepted at h
  obtain ⟨refusal, n₁, hgate, h⟩ := Durable.answers_bind.mp h
  obtain rfl := leaves_publishGate hgate.leaves
  cases refusal with
  | some code => exact .inl ⟨code, Reply.publishOutcome.inj (Durable.answers_pure.mp h).1⟩
  | none =>
  obtain ⟨published, n₂, hpublish, h⟩ := Durable.answers_bind.mp h
  have hdone : outcome = published ∧ n'.repo = n₂.repo := by
    cases published with
    | published number version tree =>
        obtain ⟨_, n₃, hpersist, hpure⟩ := Durable.answers_bind.mp h
        obtain ⟨hsame, rfl⟩ := Durable.answers_pure.mp hpure
        refine ⟨Reply.publishOutcome.inj hsame, ?_⟩
        obtain rfl | ⟨_, rfl⟩ | ⟨_, hnone, _⟩ := leaves_persist hpersist.leaves
        · rfl
        · rfl
        · cases hnone
    | conflict paths =>
        obtain ⟨hsame, rfl⟩ := Durable.answers_pure.mp h
        exact ⟨Reply.publishOutcome.inj hsame, rfl⟩
    | layerStale head =>
        obtain ⟨hsame, rfl⟩ := Durable.answers_pure.mp h
        exact ⟨Reply.publishOutcome.inj hsame, rfl⟩
    | refused code =>
        obtain ⟨hsame, rfl⟩ := Durable.answers_pure.mp h
        exact ⟨Reply.publishOutcome.inj hsame, rfl⟩
  obtain ⟨rfl, hrepo⟩ := hdone
  obtain hrefused | ⟨receipt, hreceipt, hlayer, _, houtcome⟩ := outcome_of_publishCheckpoint hn hpublish
  · exact .inl hrefused
  · exact .inr ⟨receipt, hrepo ▸ hreceipt, hlayer ▸ isReviewLayer_revisionLayer _ _, houtcome⟩

theorem Reachable.oneDecision (h : Reachable Separate n) : OneDecision n := by
  obtain ⟨ha, hr⟩ := h.agrees
  have hn := h.hosted
  refine ⟨?_, ?_, ?_, ?_, ?_, ?_, ?_, ?_⟩
  · intro op hboth
    exact not_byLayer_of_byReview hboth.2 ha hboth.1
  · intro op request outcome receipt hdecided hreceipt
    exact ((ha op request outcome hdecided).2 receipt hreceipt).2
  · intro request n' hleaves op receipt hreceipt
    have hwrites := writes_publishLayer (P := fun m i => m = n ∧ i = .publishLayer request) hleaves hn ⟨rfl, rfl⟩
    refine (hwrites.brought hn hreceipt).imp_right (fun hbrought => ?_)
    obtain ⟨m, hbrought⟩ := hbrought
    cases hbrought with
    | layer hinput hop _ hreview hlayer =>
        obtain rfl := Input.publishLayer.inj hinput.2
        exact ⟨hop.symm, hlayer ▸ hreview⟩
    | review hinput => cases hinput.2
  · exact fun request outcome n' hanswers => of_answers_publishLayer hanswers
  · intro caller op id index base n' hleaves op' receipt hreceipt
    have hwrites := Reviewing.writes_publishRequest (P := fun m i => m = n ∧
      i = .review caller (.publishRequest op id index base)) hleaves hn ⟨rfl, rfl⟩
    refine (hwrites.brought hn hreceipt).imp_right (fun hbrought => ?_)
    obtain ⟨m, hbrought⟩ := hbrought
    cases hbrought with
    | layer hinput => cases hinput.2
    | review hinput _ hlayer =>
        obtain ⟨_, hmessage⟩ := Input.review.inj hinput.2
        obtain ⟨rfl, _⟩ := ReviewMessage.publishRequest.inj hmessage
        exact ⟨rfl, hlayer ▸ isReviewLayer_revisionLayer _ _⟩
  · exact fun caller op id index base outcome n' hanswers => outcome_of_publishRequest hr hn hanswers
  · exact fun op hby caller id index base hinput => refused_publishRequest hby ha hr hn hinput
  · intro op hby request hop
    subst hop
    have hundecided : n.decided.get? request.operation = none := by
      by_contra hdecided
      exact not_byLayer_of_byReview hby ha (.inl hdecided)
    obtain ⟨receipt, hreceipt, hlayer⟩ := hby
    exact refused_publishLayer hundecided hreceipt hlayer

/-- In every state of a run whose `PublishRequest`s are separate, an operation has one decision, now and in every
later state of such a run. -/
theorem Reachable.one_decision (h : Reachable Separate n) : OneDecision n ∧ ∀ n', Run Separate n n' →
    OneDecision n' ∧ (∀ op d, n.decided.get? op = some d → n'.decided.get? op = some d) ∧
      (∀ op receipt, n.repo.publication op = .ok (some receipt) → n'.repo.publication op = .ok (some receipt)) ∧
      (∀ op, ByLayer n op → ByLayer n' op) ∧ ∀ op, ByReview n op → ByReview n' op := by
  refine ⟨h.oneDecision, fun n' hrun => ?_⟩
  have hn := h.hosted
  have h' : Reachable Separate n' := by
    obtain ⟨identity, hreach⟩ := h
    exact ⟨identity, hreach.trans hrun⟩
  have hwrites := writes_of_run hrun hn
  have hdecided : ∀ op d, n.decided.get? op = some d → n'.decided.get? op = some d := fun op d hd =>
    hwrites.invariant (I := fun n => n.decided.get? op = some d) hn hd (fun _ _ _ hd hwrite => hwrite.decided_get? hd)
  obtain ⟨S, hs⟩ := hn.sound
  obtain ⟨S', hs'⟩ := h'.hosted.sound
  have hreceipts : ∀ op receipt, n.repo.publication op = .ok (some receipt) →
      n'.repo.publication op = .ok (some receipt) :=
    fun op receipt => (hwrites.later hn).publication hs.chain hs'.chain
  refine ⟨h'.oneDecision, hdecided, hreceipts, ?_, ?_⟩
  · intro op hby
    obtain hsome | ⟨receipt, hreceipt, hlayer⟩ := hby
    · obtain ⟨d, hd⟩ := Option.ne_none_iff_exists'.mp hsome
      exact .inl (by rw [hdecided op d hd]; simp)
    · exact .inr ⟨receipt, hreceipts op receipt hreceipt, hlayer⟩
  · intro op hby
    obtain ⟨receipt, hreceipt, hlayer⟩ := hby
    exact ⟨receipt, hreceipts op receipt hreceipt, hlayer⟩

/-- A node whose operation `1` published a Layer: no `PublishRequest` publishes under it. -/
theorem one_decision_published : ∃ (n : FileWorldLog ℕ) (d : PublishLayer ℕ × Codec.PublishOutcome ℕ),
    n.decided.get? ⟨[49]⟩ = some d ∧ OneDecision n ∧
      (∀ n', Run Separate n n' → n'.decided.get? ⟨[49]⟩ = some d) ∧
      ∀ caller id index base n', (publishRequest caller ⟨[49]⟩ id index base).Leaves n n' → n' = n := by
  obtain ⟨n, head, hreach, hn, hstate, hlayer, hbase, version, r, hp⟩ :=
    exists_ready (P := Separate) 0 ⟨[97]⟩ ⟨[49]⟩ (fun _ => trivial)
  have hpolicy : n.policy = [] := by
    rw [hn]
    rfl
  have hundecided : n.decided.get? ⟨[49]⟩ = none := by
    rw [hn]
    rfl
  have hreview : isReviewLayer ⟨[97]⟩ = false := by decide
  have hanswers := answers_publishLayer ⟨⟨[49]⟩, ⟨[97]⟩, head.checkpoint, 0, .human⟩ rfl hreview hundecided hstate
    rfl hbase hpolicy hp rfl
  have hhosted : n.repo.Hosted := hreach.hosted
  have hreceipt := hp.publication hhosted
  obtain ⟨identity, hrun⟩ := hreach
  have hreach' : Reachable Separate _ := ⟨identity, hrun.tail
    ⟨.publishLayer ⟨⟨[49]⟩, ⟨[97]⟩, head.checkpoint, 0, .human⟩, trivial, answers_dropped hanswers⟩⟩
  generalize hafter : ({ n with repo := r, decided := _ } : FileWorldLog ℕ) = after at hreach'
  have hdecided : after.decided.get? ⟨[49]⟩ =
      some (⟨⟨[49]⟩, ⟨[97]⟩, head.checkpoint, 0, .human⟩, (PublishOutcome.published version).toWire) := by
    rw [← hafter]
    show (SortedMap.insert _ _ _).get? _ = _
    rw [SortedMap.get?_insert, if_pos rfl]
  have hstored : after.repo.publications.get? ⟨[49]⟩ ≠ none := by
    rw [← hafter]
    intro hnone
    cases (publication_eq_none.mpr hnone).symm.trans hreceipt
  obtain ⟨hone, hlater⟩ := hreach'.one_decision
  refine ⟨after, _, hdecided, hone, fun n' hrun' => (hlater n' hrun').2.1 _ _ hdecided, ?_⟩
  intro caller id index base n'
  have hby : ByLayer after ⟨[49]⟩ := .inl (by rw [hdecided]; simp)
  exact (hone.layerFirst _ hby caller id index base (fun _ hnone => absurd hnone hstored)).1 n'

/-! ### A refusal that `PublishRequest` does not see -/

omit [IdBytes Id] in
/-- An unknown Layer is refused, and the refusal is recorded. -/
theorem answers_publishLayer_unknown {request : PublishLayer Id} {text : String}
    (hencode : request.encode = .ok ()) (hreview : isReviewLayer request.layer = false)
    (hundecided : n.decided.get? request.operation = none)
    (hfresh : n.repo.publications.get? request.operation = none)
    (hstate : n.repo.layerStateIn request.layer = .error (.invalidInput text)) :
    (publishLayer request).Answers n (.refused "unknown_layer")
      { n with decided := n.decided.insert request.operation (request, .refused "unknown_layer") } := by
  have hdecide : (decidePublish request).Answers n (.refused "unknown_layer") n := by
    refine answers_tryNative_bind.mpr ?_
    rw [hstate]
    exact Durable.answers_pure.mpr ⟨rfl, rfl⟩
  unfold publishLayer
  rw [if_neg (by simp [hreview])]
  refine answers_encoded_bind.mpr ⟨(), hencode, ?_⟩
  refine answers_look_bind.mpr ?_
  rw [hundecided]
  refine answers_native_bind.mpr ⟨none, publication_eq_none.mpr hfresh, ?_⟩
  exact Durable.answers_bind.mpr ⟨_, _, hdecide, answers_settle rfl⟩

/-- Operation `2` is refused by `PublishLayer`, and then published by `PublishRequest`. -/
theorem one_decision_refused : ∃ (n n' : FileWorldLog ℕ) (request : PublishLayer ℕ) (caller : Caller)
    (id : RequestId) (version : WorldVersion ℕ), Reachable anyInput n ∧
      n.decided.get? request.operation = some (request, .refused "unknown_layer") ∧
      (publishRequest caller request.operation id 1 0).Answers n
        (.publishOutcome (.published version.number version.id version.tree)) n' ∧
      n'.repo.versions = n.repo.versions ++ [version] := by
  obtain ⟨head, r, hcreated, hreach⟩ := System.exists_created (0 : ℕ) ⟨[97]⟩
  obtain ⟨S, hs⟩ := hreach.sound.repository
  have hleaves : (Input.run (.createLayer ⟨[97]⟩ 0)).Leaves (initial 0) { initial 0 with repo := r } := by
    refine answers_dropped (a := head) ?_
    refine answers_native_bind.mpr ⟨⟨0, 0, versionId none emptyId SparseChanges.empty⟩, rfl, ?_⟩
    exact answers_store.mpr ⟨r, hcreated.created, rfl⟩
  have hunknown : r.layerStateIn ⟨[98]⟩ = .error (.invalidInput "unknown Layer") := by
    refine layerStateIn_of_empty hs (fun k => ?_)
    rw [hcreated.others ⟨[98]⟩ (by decide)]
    rfl
  have hfresh : r.publications.get? ⟨[50]⟩ = none := by
    rw [hcreated.publications]
    rfl
  have hrefused : (publishLayer ⟨⟨[50]⟩, ⟨[98]⟩, 0, 0, .human⟩).Answers { initial 0 with repo := r }
      (.refused "unknown_layer") _ := answers_publishLayer_unknown rfl (by decide) rfl hfresh hunknown
  have hreach' : Reachable anyInput { initial 0 with
      repo := r, decided := SortedMap.empty.insert ⟨[50]⟩ (⟨⟨[50]⟩, ⟨[98]⟩, 0, 0, .human⟩, .refused "unknown_layer") } :=
    ⟨0, .tail (.single ⟨_, trivial, hleaves⟩) ⟨.publishLayer ⟨⟨[50]⟩, ⟨[98]⟩, 0, 0, .human⟩, trivial,
      answers_dropped hrefused⟩⟩
  obtain ⟨n, revision, hn, hdecided, _, _, _, _, hpublish⟩ := exists_publishable hcreated hreach' (fun _ => trivial)
  obtain ⟨version, receipt, r', _, _, _, _, hversions, _, hanswers⟩ := hpublish ⟨[50]⟩ (by decide)
  refine ⟨n, _, ⟨⟨[50]⟩, ⟨[98]⟩, 0, 0, .human⟩, maintainer, _, version, hn, ?_, hanswers, hversions⟩
  rw [hdecided, SortedMap.get?_insert, if_pos rfl]

end FileWorldLog

end Javelin
