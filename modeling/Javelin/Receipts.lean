import Javelin.Progress
import Javelin.NumberedRecords

/-! # Publications over runs

A stored receipt stays: at every later state it reads back and is the same
(`Reachable.receipt_stays`).  A publication happens once, however its preparing, its transaction
and the operations of other clients interleave (`Reachable.publishes_once`). -/

namespace Javelin

open KeyedList

variable {Id : Type} [LinearOrder Id] [Encoding Id]

namespace Repository
variable {r r' : Repository Id} {S S' : VersionNumber → Manifest Id}

/-! ### Reading a receipt again -/

theorem publication_eq_ok {op : OperationId} {receipt : PublicationReceipt Id} :
    r.publication op = .ok (some receipt) ↔
      ∃ row, r.publications.get? op = some row ∧ r.receiptIn op row = .ok receipt := by
  unfold publication
  cases hrow : r.publications.get? op with
  | none =>
      constructor
      · intro h
        cases h
      · rintro ⟨_, h, _⟩
        cases h
  | some row =>
      simp only [except_bind_eq_ok, Option.some.injEq]
      constructor
      · rintro ⟨receipt', hreceipt, hpure⟩
        obtain rfl := Option.some.inj (Except.ok.inj hpure)
        exact ⟨row, rfl, hreceipt⟩
      · rintro ⟨_, rfl, hreceipt⟩
        exact ⟨receipt, hreceipt, rfl⟩

theorem Later.publication (h : Later r r') (hc : Chain r S) (hc' : Chain r' S') {op : OperationId}
    {receipt : PublicationReceipt Id} (hok : r.publication op = .ok (some receipt)) :
    r'.publication op = .ok (some receipt) := by
  rw [publication_eq_ok] at hok ⊢
  obtain ⟨row, hrow, hreceipt⟩ := hok
  exact ⟨row, h.publications op row hrow, h.receiptIn hc hc' hrow _ hreceipt⟩

theorem tag_of_outcomeIn (hc : Chain r S) {op : OperationId} {row : PublicationRow Id}
    {expected : LayerHead Id} {against : WorldVersion Id} {observed : LayerState Id}
    {outcome : PublishOutcome Id} (hok : r.outcomeIn op row expected against observed = .ok outcome) :
    outcome.tag = row.outcome := by
  unfold outcomeIn at hok
  cases htag : row.outcome with
  | published =>
      rw [htag] at hok
      obtain ⟨_, _, _, _, _, _, _, _, _, _, rfl⟩ := (publishedOutcome_eq_ok hc).mp hok
      rfl
  | conflict =>
      rw [htag] at hok
      obtain ⟨_, _, h₁⟩ := except_bind_eq_ok.mp hok
      obtain ⟨_, _, h₂⟩ := except_bind_eq_ok.mp h₁
      obtain ⟨composed, _, h₃⟩ := except_bind_eq_ok.mp h₂
      cases composed with
      | inl paths =>
          obtain rfl := Except.ok.inj h₃
          rfl
      | inr composition => cases h₃
  | layerStale =>
      rw [htag] at hok
      obtain ⟨_, _, h₁⟩ := except_bind_eq_ok.mp hok
      obtain ⟨_, _, h₂⟩ := except_bind_eq_ok.mp h₁
      obtain rfl := Except.ok.inj h₂
      rfl

/-- A receipt says what its row says. -/
theorem of_publication (hc : Chain r S) {op : OperationId} {row : PublicationRow Id}
    {receipt : PublicationReceipt Id} (hrow : r.publications.get? op = some row)
    (hok : r.publication op = .ok (some receipt)) :
    (receipt.operation = op ∧ receipt.outcome.tag = row.outcome) ∧
      r.objects.readBlob row.receipt = .ok (receiptBytes receipt) := by
  obtain ⟨row', hrow', hreceipt⟩ := publication_eq_ok.mp hok
  obtain rfl := Option.some.inj (hrow.symm.trans hrow')
  obtain ⟨_, _, _, _, _, _, _, _, _, _, _, _, _, _, hout, hblob, rfl⟩ :=
    (receiptIn_eq_ok hc).mp hreceipt
  exact ⟨⟨rfl, tag_of_outcomeIn hc hout⟩, hblob⟩

/-! ### Replays -/

/-- A call whose operation has a receipt is answered with it, whatever its guard says. -/
theorem publishLayer_of_publication {call : PublishCall Id} {receipt : PublicationReceipt Id}
    (hok : r.publication call.operation = .ok (some receipt)) (guard : Guard Id) (rounds : ℕ) :
    r.publishLayer call guard (rounds + 1) =
      if receipt.expected = call.expected ∧ receipt.attribution = call.attribution
      then .ok (receipt, r) else .error (.operationIdReused call.operation) := by
  have hprepare : r.prepareIn call =
      if receipt.expected = call.expected ∧ receipt.attribution = call.attribution
      then .ok (.replay receipt) else .error (.operationIdReused call.operation) := by
    unfold prepareIn
    rw [except_bind_of_ok hok]
    simp only
    unfold refuse
    by_cases hsame : receipt.expected = call.expected ∧ receipt.attribution = call.attribution
    · rw [if_pos hsame, if_neg (by simp [hsame])]
      rfl
    · rw [if_neg hsame, if_pos (not_and_or.mp hsame)]
      rfl
  unfold publishLayer
  rw [hprepare]
  by_cases hsame : receipt.expected = call.expected ∧ receipt.attribution = call.attribution
  · rw [if_pos hsame, if_pos hsame]
    rfl
  · rw [if_neg hsame, if_neg hsame]
    rfl

/-! ### The transaction of a publication -/

section calls
variable {call : PublishCall Id} {plan : Plan Id} {guard : Guard Id}

/-- The repository after a transaction: an error rolls it back, and a plan that is out of date
writes nothing. -/
def afterCommit (r : Repository Id) (call : PublishCall Id) (plan : Plan Id) (guard : Guard Id) :
    Repository Id :=
  match r.commitIn call plan guard with
  | .ok (some done) => done.2
  | _ => r

theorem afterCommit_of_error {e : Error Id} (h : r.commitIn call plan guard = .error e) :
    r.afterCommit call plan guard = r := by
  unfold afterCommit
  rw [h]

/-- A used operation makes a plan out of date. -/
theorem commitIn_of_used (hused : r.publications.get? call.operation ≠ none ∨
    r.attempts.get? call.operation ≠ none) : r.commitIn call plan guard = .ok none := by
  have hcurrent : r.current call plan = .ok false := by
    unfold current
    rw [if_pos]
    · rfl
    · exact hused.imp_left (fun h => Option.isSome_iff_ne_none.mpr h)
  unfold commitIn
  rw [except_bind_of_ok hcurrent, if_neg (by simp)]
  rfl

/-- A refusal of the guard is the result of the transaction. -/
theorem commitIn_of_refusal {composition : Composition Id} {e : Error Id}
    (hcurrent : r.current call plan = .ok true)
    (hcomposed : plan.composed = some (.inr composition))
    (hguard : guard plan.against composition.changes = .error e) :
    r.commitIn call plan guard = .error e := by
  unfold commitIn
  rw [except_bind_of_ok hcurrent, if_pos rfl]
  unfold applyPlan
  rw [hcomposed]
  show (guard plan.against composition.changes >>= _) >>= _ = _
  rw [hguard]
  rfl

/-- What a committed success composed: the exact active head with the World it was planned for. -/
theorem Committed.composed {version : WorldVersion Id}
    (h : Committed r call plan (.published version) r') (hfits : Fits r S call plan)
    (hc : Chain r S) :
    r.versions.getLast? = some plan.against ∧
      r.layerStateIn call.expected.layer = .ok (.active call.expected) ∧
      ∃ composition checkpoint, r.composeIn call.expected plan.against = .ok (.inr composition) ∧
        r.checkpointIn call.expected.checkpoint = .ok checkpoint ∧
        composition.changes = checkpoint.changes ∧
        version = plan.against.next call.operation composition.changes composition.tree ∧
        r'.versions = r.versions ++ [version] ∧
        r'.changes.get? version.number = some checkpoint.changes.entries := by
  cases h.world with
  | published composition _ hplan hp =>
      obtain ⟨⟨composition', hcompose, hchanges, htree⟩, checkpoint, hf, hcomp⟩ :=
        hfits.composition composition hplan
      have hactive := hfits.active (by rw [hplan]; simp)
      refine ⟨hfits.head, hactive ▸ hfits.actual, composition', checkpoint, hcompose,
        (checkpointIn_eq_ok hc).mpr hf, hchanges.trans hcomp.changes, ?_, hp.versions, ?_⟩
      · rw [hp.version_eq, hchanges, htree]
      · rw [hp.changes, hp.version_eq]
        show (r.changes.insert (plan.against.number + 1) _).get? (plan.against.number + 1) = _
        rw [SortedMap.get?_insert, if_pos rfl, hcomp.changes]

/-- The receipt of a commit is stored. -/
theorem Committed.publication {outcome : PublishOutcome Id} (h : Committed r call plan outcome r')
    (hfits : Fits r S call plan) (hs : Sound r S) :
    r'.publication call.operation = .ok (some (call.receipt plan outcome)) := by
  obtain ⟨blob, hpubs, hblob⟩ := h.publications
  obtain ⟨hl, S', hs'⟩ := h.sound hfits hs
  rw [publication_eq_ok]
  refine ⟨call.row plan outcome blob, ?_, h.receiptIn hfits hs hl hs'.chain hblob⟩
  rw [hpubs, SortedMap.get?_insert, if_pos rfl]

end calls

end Repository

/-! ### A first publication -/

/-- A guard that agrees to everything. -/
def allow : Guard Id := fun _ _ => .ok ()

namespace System

open Repository

/-- In a new repository a Layer can be created. -/
theorem exists_created (identity : Id) (layer : LayerId) : ∃ head r,
    Created (Repository.initial identity) layer
      ⟨identity, 0, versionId none emptyId SparseChanges.empty⟩ head r ∧
    Reachable ⟨r, []⟩ := by
  obtain ⟨S, hs⟩ := (initial_sound identity).repository
  have hbase : (Repository.initial identity).validateBase
      ⟨identity, 0, versionId none emptyId SparseChanges.empty⟩ = .ok () :=
    (validateBase_eq_ok hs.chain).mpr ⟨rfl, _, hs.chain.first, rfl⟩
  obtain ⟨head, r, hcreated⟩ := exists_createLayer hs hbase (fun _ => rfl)
  exact ⟨head, r, hcreated, identity, .tail .refl (.transact (.createLayer hcreated.created))⟩

/-- In a new repository a Layer can be created, and then published without changes. -/
theorem exists_first_publication (identity : Id) (layer : LayerId) (op : OperationId) :
    ∃ head r plan version r', Created (Repository.initial identity) layer
        ⟨identity, 0, versionId none emptyId SparseChanges.empty⟩ head r ∧ Reachable ⟨r, []⟩ ∧
      r.prepareIn ⟨op, head, .human⟩ = .ok (.advance plan) ∧
      r.commitIn ⟨op, head, .human⟩ plan allow =
        .ok (some (PublishCall.receipt ⟨op, head, .human⟩ plan (.published version), r')) ∧
      Committed r ⟨op, head, .human⟩ plan (.published version) r' := by
  obtain ⟨head, r, hcreated, hreach⟩ := exists_created identity layer
  obtain ⟨S, hs⟩ := hreach.sound.repository
  obtain ⟨checkpoint, hread, hcheckpoint, hunchanged⟩ := hcreated.unchanged
  have hhead : r.versions.getLast? =
      some ⟨0, versionId none emptyId SparseChanges.empty, emptyId, none⟩ := by
    rw [hcreated.versions]
    rfl
  have hroom : (⟨0, versionId none emptyId SparseChanges.empty, emptyId, none⟩ :
      WorldVersion Id).number < MAX_VERSION := Nat.sub_pos_of_lt (Nat.one_lt_two_pow (by decide))
  have hactive : r.layerStateIn (⟨op, head, .human⟩ : PublishCall Id).expected.layer =
      .ok (.active head) := by
    rw [show (⟨op, head, .human⟩ : PublishCall Id).expected.layer = layer from hcreated.named]
    exact hcreated.active
  obtain ⟨plan, version, r', hprepare, hcommit, hcommitted⟩ : ∃ plan version r',
      r.prepareIn ⟨op, head, .human⟩ = .ok (.advance plan) ∧
      r.commitIn ⟨op, head, .human⟩ plan allow =
        .ok (some (PublishCall.receipt ⟨op, head, .human⟩ plan (.published version), r')) ∧
      Committed r ⟨op, head, .human⟩ plan (.published version) r' :=
    exists_publish_unchanged hs hreach.indexed (by rw [hcreated.publications]; rfl)
      (by rw [hcreated.attempts]; rfl) hactive rfl rfl hhead hread hunchanged (by rw [hcheckpoint])
      rfl hroom
  exact ⟨head, r, plan, version, r', hcreated, hreach, hprepare, hcommit, hcommitted⟩

/-- The same as a run. -/
theorem exists_published (identity : Id) (layer : LayerId) (op : OperationId) :
    ∃ (s : System Id) (call : PublishCall Id) (plan : Plan Id) (guard : Guard Id)
      (version : WorldVersion Id) (r' : Repository Id), Reachable s ∧ (call, plan) ∈ s.plans ∧
      call.operation = op ∧ call.expected.layer = layer ∧
      s.repository.commitIn call plan guard =
        .ok (some (call.receipt plan (.published version), r')) ∧
      Reachable ⟨r', s.plans⟩ ∧
      ∃ row, r'.publications.get? op = some row ∧ row.layer = layer ∧ row.outcome = .published := by
  obtain ⟨head, r₁, plan, version, r', hcreated, hreach, hprepare, hcommit, hcommitted⟩ :=
    exists_first_publication identity layer op
  have hplanned : Reachable ⟨r₁, [(⟨op, head, .human⟩, plan)]⟩ :=
    hreach.run (.single (.prepare hprepare))
  obtain ⟨blob, hpubs, _⟩ := hcommitted.publications
  refine ⟨_, _, plan, _, version, r', hplanned, List.mem_singleton.mpr rfl, rfl, hcreated.named, hcommit,
    hplanned.run (.single (.commit (List.mem_singleton.mpr rfl) hcommit)),
    PublishCall.row ⟨op, head, .human⟩ plan (.published version) blob, ?_, hcreated.named, rfl⟩
  rw [hpubs, SortedMap.get?_insert, if_pos rfl]

end System

/-! ### Receipts stay -/

namespace System

open Repository

/-- A receipt that a reachable repository stores reads back, now and after every further run. -/
theorem Reachable.receipt_stays {s : System Id} (h : Reachable s) {op : OperationId}
    {row : PublicationRow Id} (hrow : s.repository.publications.get? op = some row) :
    ∃ receipt, s.repository.publication op = .ok (some receipt) ∧ receipt.operation = op ∧
      receipt.outcome.tag = row.outcome ∧
      s.repository.objects.readBlob row.receipt = .ok (receiptBytes receipt) ∧
      ∀ s', Run s s' → s'.repository.publication op = .ok (some receipt) := by
  obtain ⟨S, hs⟩ := h.sound.repository
  obtain ⟨receipt, hreceipt⟩ := hs.receipts op row hrow
  have hok : s.repository.publication op = .ok (some receipt) :=
    publication_eq_ok.mpr ⟨row, hrow, hreceipt⟩
  obtain ⟨⟨hop, htag⟩, hblob⟩ := of_publication hs.chain hrow hok
  refine ⟨receipt, hok, hop, htag, hblob, fun s' hrun => ?_⟩
  obtain ⟨hl, hs'⟩ := hrun.later h.sound
  obtain ⟨S', hs'⟩ := hs'.repository
  exact hl.publication hs.chain hs'.chain hok

/-- A publication of a numbered repository. -/
theorem receipt_stays_published : ∃ (s : System ℕ) (receipt : PublicationReceipt ℕ),
    s.repository.publication ⟨[49]⟩ = .ok (some receipt) ∧ receipt.outcome.tag = .published ∧
      ∀ s', Run s s' → s'.repository.publication ⟨[49]⟩ = .ok (some receipt) := by
  obtain ⟨s, _, _, _, _, r', _, _, _, _, _, hreach, row, hrow, _, htag⟩ :=
    exists_published 0 ⟨[97]⟩ ⟨[49]⟩
  obtain ⟨receipt, hok, _, htag', _, hstays⟩ := hreach.receipt_stays hrow
  exact ⟨⟨r', s.plans⟩, receipt, hok, htag'.trans htag, hstays⟩

/-! ### Publishing once -/

theorem version_of_operation {r : Repository Id} {S : VersionNumber → Manifest Id} (hc : Chain r S)
    {op : OperationId} {n n' : ℕ} {v v' : WorldVersion Id} (hv : r.versions[n]? = some v)
    (hv' : r.versions[n']? = some v') (hop : v.operation = some op) (hop' : v'.operation = some op) :
    n = n' := by
  obtain ⟨tree, hb⟩ := hc.attempt_of_operation hv hop
  obtain ⟨tree', hb'⟩ := hc.attempt_of_operation hv' hop'
  exact congrArg Attempt.result (Option.some.inj (hb.attempt.symm.trans hb'.attempt))

/-- However the steps of any clients interleave: an operation makes at most one version and one
receipt; a Layer is published at most once and its history ends there; a success composes the
active head it was prepared against with the current World; a retry returns the same receipt and
runs no guard; a refusal or an error writes nothing. -/
theorem Reachable.publishes_once {s : System Id} (h : Reachable s) :
    ((∀ op (n n' : ℕ) v v', s.repository.versions[n]? = some v → s.repository.versions[n']? = some v' →
        v.operation = some op → v'.operation = some op → n = n') ∧
      ∀ op row, s.repository.publications.get? op = some row →
        (∀ s', Run s s' → s'.repository.publications.get? op = some row) ∧
        ∀ call plan guard, call.operation = op → s.repository.commitIn call plan guard = .ok none) ∧
    ((∀ op op' row row', s.repository.publications.get? op = some row →
        s.repository.publications.get? op' = some row' → row.layer = row'.layer →
        row.outcome = .published → row'.outcome = .published → op = op') ∧
      ∀ op row, s.repository.publications.get? op = some row → row.outcome = .published →
        ∀ s', Run s s' → s'.repository.events row.layer = s.repository.events row.layer) ∧
    (∀ call plan guard receipt r', (call, plan) ∈ s.plans →
      s.repository.commitIn call plan guard = .ok (some (receipt, r')) →
      (∀ version, receipt.outcome = .published version →
        s.repository.versions.getLast? = some plan.against ∧
        s.repository.layerStateIn call.expected.layer = .ok (.active call.expected) ∧
        ∃ composition checkpoint,
          s.repository.composeIn call.expected plan.against = .ok (.inr composition) ∧
          s.repository.checkpointIn call.expected.checkpoint = .ok checkpoint ∧
          composition.changes = checkpoint.changes ∧
          version = plan.against.next call.operation composition.changes composition.tree ∧
          r'.versions = s.repository.versions ++ [version] ∧
          r'.changes.get? version.number = some checkpoint.changes.entries) ∧
      ∀ s', Run ⟨r', s.plans⟩ s' → ∀ guard' rounds,
        s'.repository.publishLayer call guard' (rounds + 1) = .ok (receipt, s'.repository)) ∧
    (∀ call plan guard composition e, s.repository.current call plan = .ok true →
      plan.composed = some (.inr composition) → guard plan.against composition.changes = .error e →
      s.repository.commitIn call plan guard = .error e) ∧
    ∀ call plan guard e, s.repository.commitIn call plan guard = .error e →
      s.repository.afterCommit call plan guard = s.repository := by
  obtain ⟨S, hs⟩ := h.sound.repository
  refine ⟨⟨?_, ?_⟩, ⟨hs.once, ?_⟩, ?_, ?_, fun _ _ _ _ => afterCommit_of_error⟩
  · exact fun op n n' v v' hv hv' => version_of_operation hs.chain hv hv'
  · refine fun op row hrow => ⟨fun s' hrun => (hrun.later h.sound).1.publications op row hrow, ?_⟩
    rintro call plan guard rfl
    exact commitIn_of_used (Or.inl (by rw [hrow]; simp))
  · exact fun op row hrow htag s' hrun => (hrun.later h.sound).1.final op row hrow htag
  · intro call plan guard receipt r' hm hok
    obtain ⟨hcurrent, outcome, hcommitted, rfl, _⟩ := of_commitIn hok
    have hfits := (h.sound.plans _ hm).fits hs hcurrent
    refine ⟨?_, fun s' hrun guard' rounds => ?_⟩
    · rintro version hversion
      obtain rfl : outcome = .published version := hversion
      exact hcommitted.composed hfits hs.chain
    · have hsound : System.Sound ⟨r', s.plans⟩ :=
        (h.run (.single (.commit hm hok))).sound
      obtain ⟨S', hs'⟩ := hsound.repository
      obtain ⟨hl, hs''⟩ := hrun.later hsound
      obtain ⟨S'', hs''⟩ := hs''.repository
      have hpub := hl.publication hs'.chain hs''.chain (hcommitted.publication hfits hs)
      rw [publishLayer_of_publication hpub, if_pos ⟨rfl, rfl⟩]
  · exact fun call plan guard composition e => commitIn_of_refusal

/-- A numbered repository with a publication in flight that succeeds: its receipt answers every
retry from then on. -/
theorem publishes_once_published : ∃ (s : System ℕ) (call : PublishCall ℕ)
    (receipt : PublicationReceipt ℕ) (r' : Repository ℕ), receipt.outcome.tag = .published ∧
      ∀ s', Run ⟨r', s.plans⟩ s' → ∀ guard rounds,
        s'.repository.publishLayer call guard (rounds + 1) = .ok (receipt, s'.repository) := by
  obtain ⟨s, call, plan, guard, version, r', hreach, hm, _, _, hcommit, _⟩ :=
    exists_published 0 ⟨[97]⟩ ⟨[49]⟩
  exact ⟨s, call, _, r', rfl, (hreach.publishes_once.2.2.1 call plan guard _ r' hm hcommit).2⟩

end System

end Javelin
