import Javelin.HostedWrites
import Javelin.ReviewRuns

/-! # What review messages and the other inputs write

One lemma for each program of a handler: what it leaves, and what was checked when it answers.
`writes_of_leaves` puts them together, and `Hosted` is kept by every write (`Writes.hosted`). -/

namespace Javelin

open KeyedList Collaboration Identity Protocol Codec Repository

variable {Id : Type} [LinearOrder Id] [Encoding Id]

theorem Caller.permissions_of_authorize {caller : Caller} {scope : Scope} {layer : Option Str} {grant : Grant}
    {permissions : AppliedPermissions} (h : caller.authorize scope layer = .ok (grant, permissions)) :
    caller.gate.permissions = some permissions := by
  unfold Caller.authorize at h
  obtain ⟨grant', _, h₁⟩ := except_bind_eq_ok.mp h
  split at h₁
  · cases h₁
  · rename_i hpermissions
    obtain ⟨_, rfl⟩ := Prod.mk.inj (Except.ok.inj h₁)
    exact hpermissions

/-- A Revise, Approve or Comment of a request. -/
def ReviewMessage.Judges (id : RequestId) : ReviewMessage Id → Prop
  | .revise _ request _ _ _ => request = id
  | .approve _ request _ => request = id
  | .comment _ request _ _ => request = id
  | _ => False

namespace Reviewing

open FileWorldLog

variable {n n' : FileWorldLog Id} {id : RequestId}

omit [Encoding Id] in
theorem restore_congr {repository : RepositoryId} (h : n'.rows = n.rows) :
    restore n' repository id = restore n repository id := by
  unfold restore
  rw [h]

omit [Encoding Id] in
theorem recorded_congr {op : OperationId} (h : n'.rows = n.rows) : recorded n' op = recorded n op := by
  unfold recorded
  rw [h]

theorem Since.rows (h : Since n n') : n'.rows = n.rows := by
  obtain ⟨r, _, rfl⟩ := h
  rfl

theorem Since.requests (h : Since n n') : n'.requests = n.requests := by
  obtain ⟨r, _, rfl⟩ := h
  rfl

/-! ### The parts of a handler -/

omit [Encoding Id] in
theorem leaves_target {caller : Caller} {scope : Scope} (h : (target caller scope id).Leaves n n') : n' = n := by
  unfold target at h
  rw [leaves_look_bind, leaves_encoded_bind] at h
  obtain hsame | ⟨⟨grant, permissions⟩, _, hchecked⟩ := h
  · exact hsame
  simp only at hchecked
  split at hchecked
  · exact leaves_throwNew.mp hchecked
  · obtain hsame | ⟨review, _, hpure⟩ := Durable.leaves_read_bind.mp hchecked
    · exact hsame
    · exact Durable.leaves_pure.mp hpure

omit [Encoding Id] in
theorem answers_target {caller : Caller} {scope : Scope} {grant : Grant} {permissions : AppliedPermissions}
    {review : Review Id} : (target caller scope id).Answers n (grant, permissions, review) n' ↔
      n' = n ∧ caller.authorize scope (n.requests.get? id) = .ok (grant, permissions) ∧
        n.requests.get? id ≠ none ∧ restore n permissions.repository id = .ok review := by
  unfold target
  rw [answers_look_bind, answers_encoded_bind]
  constructor
  · intro h
    obtain ⟨⟨grant', permissions'⟩, hauthorize, hchecked⟩ := h
    simp only at hchecked
    split at hchecked
    · exact absurd hchecked answers_throwNew
    · rename_i hknown
      obtain ⟨review', hrestore, hpure⟩ := Durable.answers_read_bind.mp hchecked
      obtain ⟨hanswer, hsame⟩ := Durable.answers_pure.mp hpure
      simp only [Prod.mk.injEq] at hanswer
      obtain ⟨rfl, rfl, rfl⟩ := hanswer
      exact ⟨hsame, hauthorize, hknown, hrestore⟩
  · intro h
    obtain ⟨rfl, hauthorize, hknown, hrestore⟩ := h
    refine ⟨_, hauthorize, ?_⟩
    simp only [if_neg hknown]
    exact Durable.answers_read_bind.mpr ⟨review, hrestore, Durable.answers_pure.mpr ⟨rfl, rfl⟩⟩

omit [Encoding Id] in
theorem leaves_decideCommand {permissions : AppliedPermissions} {review : Review Id} {command : Command Id}
    (h : (decideCommand permissions review id command).Leaves n n') : n' = n := by
  unfold decideCommand at h
  rw [leaves_look_bind] at h
  split at h
  · split at h <;> exact Durable.leaves_pure.mp h
  · split at h
    · exact Durable.leaves_pure.mp h
    · exact Durable.leaves_pure.mp h
    · exact Durable.leaves_fail.mp h

omit [Encoding Id] in
theorem answers_decideCommand {permissions : AppliedPermissions} {review next : Review Id}
    {command : Command Id} : (decideCommand permissions review id command).Answers n (.accepted next) n' ↔
      n' = n ∧ recorded n command.operation = none ∧
        ∃ applied, review.apply command permissions = .ok applied ∧ applied.review = next := by
  unfold decideCommand
  rw [answers_look_bind]
  cases hrecorded : recorded n command.operation with
  | some row =>
      simp only
      split <;> simp
  | none =>
      simp only
      cases review.apply command permissions with
      | ok applied => simp [eq_comm, and_comm]
      | error failure => cases failure <;> simp

omit [Encoding Id] in
/-- What recording a command leaves. -/
theorem leaves_persist {command : Command Id} {epoch : ℕ} {reply : Reply Id} {layer : Option Str}
    (h : (persist id command epoch reply layer).Leaves n n') :
    n' = n ∨ (layer = none ∧ n' = { n with rows := n.rows ++ [⟨id, epoch, command, reply⟩] }) ∨
      ∃ text, layer = some text ∧ n.requests.get? id = none ∧ n' = { n with
        requests := n.requests.insert id text, rows := n.rows ++ [⟨id, epoch, command, reply⟩] } := by
  cases Durable.leaves_transact.mp h with
  | inl hsame => exact .inl hsame
  | inr hdone =>
      obtain ⟨_, hok⟩ := hdone
      split at hok
      · rename_i text
        split at hok
        · cases hok
        · rename_i hnew
          rw [not_not] at hnew
          exact .inr (.inr ⟨text, rfl, hnew, (Prod.mk.inj (Except.ok.inj hok)).2.symm⟩)
      · exact .inr (.inl ⟨rfl, (Prod.mk.inj (Except.ok.inj hok)).2.symm⟩)

omit [Encoding Id] in
theorem leaves_settleReview {command : Command Id} {epoch : ℕ} {layer : Option Str} {decision : Decision Id}
    (h : (settleReview id command epoch layer decision).Leaves n n') :
    n' = n ∨ ∃ next reply, decision = .accepted next ∧
      (persist id command epoch reply layer).Leaves n n' := by
  cases decision with
  | replayed reply => exact .inl (Durable.leaves_pure.mp h)
  | refused code => exact .inl (Durable.leaves_pure.mp h)
  | accepted next =>
      cases Durable.leaves_bind.mp h with
      | inl hpersist => exact .inr ⟨next, _, rfl, hpersist⟩
      | inr hrest =>
          obtain ⟨_, n₁, hpersist, hpure⟩ := hrest
          exact .inr ⟨next, _, rfl, Durable.leaves_pure.mp hpure ▸ hpersist.leaves⟩

/-! ### Review messages -/

theorem leaves_revisionRef {checkpoint : Id} {base : VersionNumber}
    (h : (revisionRef checkpoint base).Leaves n n') : Since n n' := by
  unfold revisionRef at h
  rw [leaves_tryNative_bind] at h
  split at h
  · exact Durable.leaves_pure.mp h ▸ .refl n
  · split at h
    · exact Durable.leaves_pure.mp h ▸ .refl n
    · cases Durable.leaves_bind.mp h with
      | inl htree => exact leaves_checkpointTree htree
      | inr hrest =>
          obtain ⟨tree, n₁, htree, hpure⟩ := hrest
          exact Durable.leaves_pure.mp hpure ▸ leaves_checkpointTree htree.leaves

theorem answers_revisionRef {checkpoint : Id} {base : VersionNumber} {revision : RevisionRef Id}
    (h : (revisionRef checkpoint base).Answers n (.ok revision) n') (hn : n.repo.Hosted) :
    TreeOf n'.repo revision.checkpoint revision.tree := by
  unfold revisionRef at h
  rw [answers_tryNative_bind] at h
  split at h
  · cases (Durable.answers_pure.mp h).1
  · split at h
    · cases (Durable.answers_pure.mp h).1
    · obtain ⟨tree, n₁, htree, hpure⟩ := Durable.answers_bind.mp h
      obtain ⟨hrevision, rfl⟩ := Durable.answers_pure.mp hpure
      obtain rfl := Except.ok.inj hrevision
      exact (answers_checkpointTree htree hn).2

variable [IdBytes Id] {P : FileWorldLog Id → Input Id → Prop}

/-- An action of a command: it writes quietly, never publishes, and its revision has its checkpoint's tree. -/
structure Prepares (n : FileWorldLog Id) (action : NodeM Id (Except String (Action Id))) : Prop where
  leaves : ∀ n', action.Leaves n n' → Since n n'
  ordinary : ∀ n' a, action.Answers n (.ok a) n' → ∀ index revision, a ≠ .publish index revision
  tree : ∀ n' a revision, action.Answers n (.ok a) n' →
    (a = .open revision ∨ ∃ expected, a = .revise expected revision) →
      TreeOf n'.repo revision.checkpoint revision.tree

/-- What a command leaves: nothing but quiet writes, or also the row of a command that its request accepts. -/
theorem leaves_command {caller : Caller} {scope : Scope} {op : OperationId}
    {action : Review Id → NodeM Id (Except String (Action Id))}
    (h : (command caller scope op id action).Leaves n n') (hn : n.repo.Hosted)
    (haction : ∀ review, Prepares n (action review)) : Since n n' ∨
      ∃ n₁ permissions actor a stored review applied reply, Since n n₁ ∧
        caller.gate.permissions = some permissions ∧
        Reviewed n₁ permissions id ⟨op, actor, a⟩ stored review applied ∧ n₁.requests.get? id ≠ none ∧
        n' = { n₁ with rows := n₁.rows ++ [⟨id, permissions.epoch, ⟨op, actor, a⟩, reply⟩] } := by
  unfold command at h
  cases Durable.leaves_bind.mp h with
  | inl htarget => exact .inl (leaves_target htarget ▸ .refl n)
  | inr hrest =>
  obtain ⟨⟨grant, permissions, stored⟩, n₁, htarget, hrest⟩ := hrest
  obtain ⟨rfl, hauthorize, hknown, hrestore⟩ := answers_target.mp htarget
  simp only [leaves_native_bind, leaves_encoded_bind] at hrest
  obtain rfl | ⟨review, hsettled, rfl | ⟨actor, _, hrest⟩⟩ := hrest
  · exact .inl (.refl _)
  · exact .inl (.refl _)
  cases Durable.leaves_bind.mp hrest with
  | inl hact => exact .inl ((haction review).leaves _ hact)
  | inr hacted =>
  obtain ⟨answer, n₂, hact, hacted⟩ := hacted
  have hsince := (haction review).leaves _ hact.leaves
  cases answer with
  | error code => exact .inl (Durable.leaves_pure.mp hacted ▸ hsince)
  | ok a =>
  cases Durable.leaves_bind.mp hacted with
  | inl hdecide => exact .inl (leaves_decideCommand hdecide ▸ hsince)
  | inr hdecided =>
  obtain ⟨decision, n₃, hdecide, hsettle⟩ := hdecided
  obtain rfl := leaves_decideCommand hdecide.leaves
  cases leaves_settleReview hsettle with
  | inl hsame => exact .inl (hsame ▸ hsince)
  | inr hpersist =>
  obtain ⟨next, reply, rfl, hpersist⟩ := hpersist
  obtain ⟨_, hfresh, applied, happly, _⟩ := answers_decideCommand.mp hdecide
  obtain hsame | ⟨_, hrow⟩ | ⟨_, hnone, _⟩ := leaves_persist hpersist
  · exact .inl (hsame ▸ hsince)
  · have hreviewed : Reviewed n₃ permissions id ⟨op, actor, a⟩ stored review applied :=
      ⟨hfresh, (restore_congr (Since.rows hsince)).trans hrestore, ⟨_, hn, hsince.quiet, hsettled⟩, happly,
        (haction review).ordinary _ a hact, fun revision => (haction review).tree _ a revision hact⟩
    exact .inr ⟨n₃, permissions, actor, a, stored, review, applied, reply, hsince,
      Caller.permissions_of_authorize hauthorize, hreviewed, Since.requests hsince ▸ hknown, hrow⟩
  · cases hnone

theorem writes_command {caller : Caller} {scope : Scope} {op : OperationId} {message : ReviewMessage Id}
    {action : Review Id → NodeM Id (Except String (Action Id))}
    (h : (command caller scope op id action).Leaves n n') (hn : n.repo.Hosted)
    (hinput : P n (.review caller message)) (hop : message.operation = some op)
    (hmessage : ∀ op id index base, message ≠ .publishRequest op id index base)
    (haction : ∀ review, Prepares n (action review)) : Writes P n n' := by
  obtain hsince | ⟨n₁, permissions, actor, a, stored, review, applied, reply, hsince, hpermissions, hreviewed, hknown,
    rfl⟩ := leaves_command h hn haction
  · exact hsince.writes
  · exact hsince.writes.tail (.reviewed hinput hsince hop hmessage hpermissions hreviewed hknown)

omit [IdBytes Id] in
theorem prepares_revise {expected : ℕ} {checkpoint : Id} {base : VersionNumber} (hn : n.repo.Hosted) :
    Prepares n (do
      let revision ← revisionRef checkpoint base
      return revision.map (fun revision => .revise expected revision)) where
  leaves n' h := by
    cases Durable.leaves_bind.mp h with
    | inl hread => exact leaves_revisionRef hread
    | inr hrest =>
        obtain ⟨revision, n₁, hread, hpure⟩ := hrest
        exact Durable.leaves_pure.mp hpure ▸ leaves_revisionRef hread.leaves
  ordinary n' a h index revision hsame := by
    obtain ⟨answer, n₁, _, hpure⟩ := Durable.answers_bind.mp h
    obtain ⟨ha, _⟩ := Durable.answers_pure.mp hpure
    subst hsame
    cases answer <;> cases ha
  tree n' a revision h ha := by
    obtain ⟨answer, n₁, hread, hpure⟩ := Durable.answers_bind.mp h
    obtain ⟨hanswer, rfl⟩ := Durable.answers_pure.mp hpure
    cases answer with
    | error code => cases hanswer
    | ok found =>
        obtain rfl := Except.ok.inj hanswer
        obtain hopen | ⟨expected', hrevise⟩ := ha
        · cases hopen
        · obtain ⟨_, rfl⟩ := Action.revise.inj hrevise
          exact answers_revisionRef hread hn

omit [IdBytes Id] in
/-- An answer that writes nothing, and brings no revision. -/
theorem prepares_pure {answer : Except String (Action Id)}
    (hanswer : ∀ a, answer = .ok a → ∀ revision, a ≠ .open revision ∧ (∀ index, a ≠ .publish index revision) ∧
      ∀ expected, a ≠ .revise expected revision) : Prepares n (pure answer) where
  leaves n' h := Durable.leaves_pure.mp h ▸ .refl n
  ordinary n' a h index revision := by
    obtain ⟨ha, _⟩ := Durable.answers_pure.mp h
    exact (hanswer a ha.symm revision).2.1 index
  tree n' a revision h ha := by
    obtain ⟨hsame, _⟩ := Durable.answers_pure.mp h
    obtain ⟨hopen, _, hrevise⟩ := hanswer a hsame.symm revision
    obtain rfl | ⟨expected, rfl⟩ := ha
    · exact absurd rfl hopen
    · exact absurd rfl (hrevise expected)

/-- The command of a Revise, Approve or Comment. -/
theorem exists_command (caller : Caller) {message : ReviewMessage Id} (hn : n.repo.Hosted)
    (h : message.Judges id) : ∃ scope op action, handle caller message = command caller scope op id action ∧
      message.operation = some op ∧ (∀ op id index base, message ≠ .publishRequest op id index base) ∧
      ∀ review, Prepares n (action review) := by
  cases message with
  | openRequest op id layer checkpoint base => exact h.elim
  | revise op id' expected checkpoint base =>
      obtain rfl : id' = id := h
      exact ⟨_, op, _, rfl, rfl, (fun _ _ _ _ h => by cases h), fun _ => prepares_revise hn⟩
  | approve op id' index =>
      obtain rfl : id' = id := h
      refine ⟨_, op, _, rfl, rfl, (fun _ _ _ _ h => by cases h), fun review => ?_⟩
      cases pinned review index with
      | none => exact prepares_pure (fun _ ha => by cases ha)
      | some revision =>
          refine prepares_pure (fun a ha revision' => ?_)
          obtain rfl := Except.ok.inj ha
          exact ⟨fun h => (by cases h), fun _ h => (by cases h), fun _ h => (by cases h)⟩
  | comment op id' index body =>
      obtain rfl : id' = id := h
      refine ⟨_, op, _, rfl, rfl, (fun _ _ _ _ h => by cases h), fun review => ?_⟩
      cases CommentBody.parse body with
      | none => exact prepares_pure (fun _ ha => by cases ha)
      | some body =>
          refine prepares_pure (fun a ha revision' => ?_)
          obtain rfl := Except.ok.inj ha
          exact ⟨fun h => (by cases h), fun _ h => (by cases h), fun _ h => (by cases h)⟩
  | publishRequest op id index base => exact h.elim
  | readRequest id => exact h.elim

theorem writes_openRequest {caller : Caller} {op : OperationId} {layer : LayerId} {checkpoint : Id}
    {base : VersionNumber} (h : (openRequest caller op id layer checkpoint base).Leaves n n')
    (hn : n.repo.Hosted) (hinput : P n (.review caller (.openRequest op id layer checkpoint base))) :
    Writes P n n' := by
  unfold openRequest at h
  rw [leaves_encoded_bind] at h
  obtain rfl | ⟨⟨grant, permissions⟩, hauthorize, h⟩ := h
  · exact .refl
  simp only [leaves_encoded_bind, leaves_tryNative_bind] at h
  obtain rfl | ⟨actor, _, h⟩ := h
  · exact .refl
  split at h
  · exact Durable.leaves_pure.mp h ▸ .refl
  cases Durable.leaves_bind.mp h with
  | inl href => exact (leaves_revisionRef href).writes
  | inr hrest =>
  obtain ⟨answer, n₁, href, hrest⟩ := hrest
  have hsince := leaves_revisionRef href.leaves
  cases answer with
  | error code => exact Durable.leaves_pure.mp hrest ▸ hsince.writes
  | ok revision =>
  simp only [Durable.leaves_read_bind, leaves_native_bind] at hrest
  obtain rfl | ⟨stored, hrestore, rfl | ⟨review, hsettled, hrest⟩⟩ := hrest
  · exact hsince.writes
  · exact hsince.writes
  cases Durable.leaves_bind.mp hrest with
  | inl hdecide => exact leaves_decideCommand hdecide ▸ hsince.writes
  | inr hdecided =>
  obtain ⟨decision, n₂, hdecide, hsettle⟩ := hdecided
  obtain rfl := leaves_decideCommand hdecide.leaves
  cases leaves_settleReview hsettle with
  | inl hsame => exact hsame ▸ hsince.writes
  | inr hpersist =>
  obtain ⟨next, reply, rfl, hpersist⟩ := hpersist
  obtain ⟨_, hfresh, applied, happly, _⟩ := answers_decideCommand.mp hdecide
  obtain hsame | ⟨hnone, _⟩ | ⟨text, htext, hnew, hrow⟩ := leaves_persist hpersist
  · exact hsame ▸ hsince.writes
  · cases hnone
  · obtain rfl := Option.some.inj htext
    have hreviewed : Reviewed n₂ permissions id ⟨op, actor, .open revision⟩ stored review applied := by
      refine ⟨hfresh, hrestore, ⟨_, hn.quiet hsince.quiet, .refl _, hsettled⟩, happly, (fun _ _ h => by cases h), ?_⟩
      intro revision' hrevision
      obtain hopen | ⟨expected, hrevise⟩ := hrevision
      · obtain rfl := Action.open.inj hopen
        exact answers_revisionRef href hn
      · cases hrevise
    rw [hrow]
    exact hsince.writes.tail (.opened hinput hsince (Caller.permissions_of_authorize hauthorize) hreviewed hnew)

/-! ### Publishing a revision -/

omit [IdBytes Id] in
theorem of_cloneLayer {r r' : Repository Id} {layer : LayerId} {checkpoint : Id} {head : LayerHead Id}
    (hok : r.cloneLayer layer checkpoint = .ok (head, r')) :
    head.layer = layer ∧ head.checkpoint = checkpoint := by
  unfold cloneLayer at hok
  obtain ⟨frozen, _, hcreate⟩ := except_bind_eq_ok.mp hok
  obtain ⟨rfl, _⟩ := of_createIn hcreate
  exact ⟨rfl, rfl⟩

omit [IdBytes Id] in
theorem leaves_revisionHead {layer : LayerId} {checkpoint : Id}
    (h : (revisionHead layer checkpoint).Leaves n n') : Since n n' := by
  unfold revisionHead at h
  rw [leaves_tryNative_bind] at h
  split at h
  · split at h <;> exact Durable.leaves_pure.mp h ▸ .refl n
  · exact Durable.leaves_pure.mp h ▸ .refl n
  · exact Durable.leaves_pure.mp h ▸ .refl n
  · have hstored : ∀ {n₁}, (store (fun r => r.cloneLayer layer checkpoint)).Leaves n n₁ → Since n n₁ := by
      intro n₁ hleaves
      cases leaves_store.mp hleaves with
      | inl hsame => exact hsame ▸ .refl n
      | inr hdone =>
          obtain ⟨head, r, hok, rfl⟩ := hdone
          exact .repo (quiet_cloneLayer hok)
    cases Durable.leaves_bind.mp h with
    | inl hstore => exact hstored hstore
    | inr hrest =>
        obtain ⟨head, n₁, hstore, hpure⟩ := hrest
        exact Durable.leaves_pure.mp hpure ▸ hstored hstore.leaves
  · exact Durable.leaves_fail.mp h ▸ .refl n

omit [IdBytes Id] in
theorem answers_revisionHead {layer : LayerId} {checkpoint : Id} {head : LayerHead Id}
    (h : (revisionHead layer checkpoint).Answers n (.ok head) n') :
    head.layer = layer ∧ head.checkpoint = checkpoint := by
  unfold revisionHead at h
  rw [answers_tryNative_bind] at h
  split at h
  · rename_i active hactive
    split at h
    · rename_i hsame
      obtain ⟨hhead, _⟩ := Durable.answers_pure.mp h
      obtain rfl := Except.ok.inj hhead
      exact ⟨layer_of_active hactive, hsame⟩
    · cases (Durable.answers_pure.mp h).1
  · cases (Durable.answers_pure.mp h).1
  · cases (Durable.answers_pure.mp h).1
  · obtain ⟨head', n₁, hstore, hpure⟩ := Durable.answers_bind.mp h
    obtain ⟨hhead, _⟩ := Durable.answers_pure.mp hpure
    obtain rfl := Except.ok.inj hhead
    obtain ⟨r, hok, _⟩ := answers_store.mp hstore
    exact of_cloneLayer hok
  · exact absurd h Durable.answers_fail

omit [Encoding Id] [IdBytes Id] in
theorem leaves_answerPublish {published : Except (Error Id) (PublicationReceipt Id)}
    (h : (answerPublish published).Leaves n n') : n' = n := by
  unfold answerPublish at h
  split at h
  · exact Durable.leaves_pure.mp h
  · split at h
    · exact Durable.leaves_pure.mp h
    · exact Durable.leaves_fail.mp h

omit [Encoding Id] [IdBytes Id] in
/-- Only a receipt answers that something was published. -/
theorem answers_answerPublish {published : Except (Error Id) (PublicationReceipt Id)}
    {number : VersionNumber} {version tree : Id}
    (h : (answerPublish published).Answers n (.published number version tree) n') :
    ∃ receipt, published = .ok receipt ∧ receipt.outcome.toWire = .published number version tree := by
  unfold answerPublish at h
  split at h
  · rename_i receipt
    exact ⟨receipt, rfl, (Durable.answers_pure.mp h).1.symm⟩
  · split at h
    · cases (Durable.answers_pure.mp h).1
    · exact absurd h Durable.answers_fail

/-- What publishing a revision's checkpoint leaves. -/
inductive Publishing (n : FileWorldLog Id) (op : OperationId) (id : RequestId) (index : ℕ)
    (revision : RevisionRef Id) : FileWorldLog Id → Prop
  | idle {n₁} : Since n n₁ → Publishing n op id index revision n₁
  | published {n₁ head receipt r} : Since n n₁ → n.repo.publication op = .ok none →
      head.layer = revisionLayer Id id index → head.checkpoint = revision.checkpoint →
      Publishes n₁.repo ⟨op, head, .human⟩ receipt r → Publishing n op id index revision { n₁ with repo := r }

theorem leaves_publishCheckpoint {op : OperationId} {index : ℕ} {revision : RevisionRef Id}
    (h : (publishCheckpoint op id index revision).Leaves n n') : Publishing n op id index revision n' := by
  unfold publishCheckpoint at h
  simp only [leaves_native_bind] at h
  obtain rfl | ⟨stored, hstored, h⟩ := h
  · exact .idle (.refl _)
  cases stored with
  | some receipt =>
      simp only at h
      split at h <;> exact Durable.leaves_pure.mp h ▸ .idle (.refl _)
  | none =>
  cases Durable.leaves_bind.mp h with
  | inl hhead => exact .idle (leaves_revisionHead hhead)
  | inr hrest =>
  obtain ⟨answer, n₁, hhead, hrest⟩ := hrest
  have hsince := leaves_revisionHead hhead.leaves
  cases answer with
  | error code => exact Durable.leaves_pure.mp hrest ▸ .idle hsince
  | ok head =>
  obtain ⟨hlayer, hcheckpoint⟩ := answers_revisionHead hhead
  have hpublished : ∀ {n₂}, (publishNative ⟨op, head, .human⟩).Leaves n₁ n₂ →
      Publishing n op id index revision n₂ := by
    intro n₂ hleaves
    cases leaves_tryStore.mp hleaves with
    | inl hsame => exact hsame ▸ .idle hsince
    | inr hdone =>
        obtain ⟨receipt, r, hok, rfl⟩ := hdone
        refine .published hsince hstored hlayer hcheckpoint ⟨?_, hok⟩
        rw [hsince.quiet.publications]
        exact publication_eq_none.mp hstored
  cases Durable.leaves_bind.mp hrest with
  | inl hpublish => exact hpublished hpublish
  | inr hanswered =>
      obtain ⟨published, n₂, hpublish, hanswer⟩ := hanswered
      exact leaves_answerPublish hanswer ▸ hpublished hpublish.leaves

theorem answers_publishCheckpoint {op : OperationId} {index : ℕ} {revision : RevisionRef Id}
    {number : VersionNumber} {version tree : Id} (hn : n.repo.Hosted)
    (h : (publishCheckpoint op id index revision).Answers n (.published number version tree) n') :
    ∃ receipt, n'.repo.publication op = .ok (some receipt) ∧
      receipt.expected.layer = revisionLayer Id id index ∧ receipt.expected.checkpoint = revision.checkpoint ∧
      receipt.outcome.toWire = .published number version tree := by
  unfold publishCheckpoint at h
  simp only [answers_native_bind] at h
  obtain ⟨stored, hstored, h⟩ := h
  cases stored with
  | some receipt =>
      simp only at h
      split at h
      · cases (Durable.answers_pure.mp h).1
      · rename_i hmatch
        rw [not_or, not_not, not_not] at hmatch
        obtain ⟨houtcome, rfl⟩ := Durable.answers_pure.mp h
        exact ⟨receipt, hstored, hmatch.1, hmatch.2, houtcome.symm⟩
  | none =>
      obtain ⟨answer, n₁, hhead, hrest⟩ := Durable.answers_bind.mp h
      have hsince := leaves_revisionHead hhead.leaves
      cases answer with
      | error code => cases (Durable.answers_pure.mp hrest).1
      | ok head =>
          obtain ⟨hlayer, hcheckpoint⟩ := answers_revisionHead hhead
          obtain ⟨published, n₂, hpublish, hanswer⟩ := Durable.answers_bind.mp hrest
          obtain rfl := leaves_answerPublish hanswer.leaves
          obtain ⟨receipt, rfl, houtcome⟩ := answers_answerPublish hanswer
          obtain ⟨receipt', r, hsame, hok, rfl⟩ | ⟨e, hsame, _⟩ := answers_tryStore.mp hpublish
          · obtain rfl := Except.ok.inj hsame
            have hn₁ := hn.quiet hsince.quiet
            have hp : Publishes n₁.repo ⟨op, head, .human⟩ receipt r := by
              refine ⟨?_, hok⟩
              rw [hsince.quiet.publications]
              exact publication_eq_none.mp hstored
            obtain ⟨_, hexpected, _⟩ := hp.named hn₁
            refine ⟨receipt, hp.publication hn₁, ?_, ?_, houtcome⟩
            · rw [hexpected]
              exact hlayer
            · rw [hexpected]
              exact hcheckpoint
          · cases hsame

omit [Encoding Id] [IdBytes Id] in
theorem approved_since {permissions : AppliedPermissions} {command : Command Id} {index : ℕ}
    {revision : RevisionRef Id} {review : Review Id} (h : Approved n permissions id command index revision review)
    (hrows : n'.rows = n.rows) (hrequests : n'.requests = n.requests) :
    Approved n' permissions id command index revision review where
  fresh := (recorded_congr hrows).trans h.fresh
  known := hrequests ▸ h.known
  restored := (restore_congr hrows).trans h.restored
  action := h.action
  accepted := h.accepted

omit [IdBytes Id] in
theorem leaves_publishGate {op : OperationId} {tree : Id} {permissions : AppliedPermissions}
    (h : (publishGate op tree permissions).Leaves n n') : n' = n := by
  unfold publishGate at h
  simp only [leaves_native_bind] at h
  obtain hsame | ⟨stored, _, h⟩ := h
  · exact hsame
  cases stored with
  | some receipt => exact Durable.leaves_pure.mp h
  | none => exact leaves_look.mp h

omit [IdBytes Id] in
/-- What is not published yet passed its gate. -/
theorem unmet_of_publishGate {op : OperationId} {tree : Id} {permissions : AppliedPermissions}
    (h : (publishGate op tree permissions).Answers n none n') (hfresh : n.repo.publication op = .ok none) :
    Checks.unmet n n.policy tree (some permissions) = none := by
  unfold publishGate at h
  simp only [answers_native_bind] at h
  obtain ⟨stored, hstored, h⟩ := h
  obtain rfl := Except.ok.inj (hfresh.symm.trans hstored)
  exact (answers_look.mp h).1.symm

section publish
variable {caller : Caller} {op : OperationId} {index : ℕ} {base : VersionNumber} {actor : PrincipalId}
  {permissions : AppliedPermissions} {revision : RevisionRef Id} {review : Review Id}

theorem writes_publishAccepted
    (h : (publishAccepted permissions id ⟨op, actor, .publish index revision⟩ index revision).Leaves n n')
    (hn : n.repo.Hosted) (hinput : P n (.review caller (.publishRequest op id index base)))
    (hpermissions : caller.gate.permissions = some permissions)
    (happroved : Approved n permissions id ⟨op, actor, .publish index revision⟩ index revision review) :
    Writes P n n' := by
  unfold publishAccepted at h
  cases Durable.leaves_bind.mp h with
  | inl hgate => exact leaves_publishGate hgate ▸ .refl
  | inr hrest =>
  obtain ⟨refusal, n₁, hgate, hrest⟩ := hrest
  obtain rfl := leaves_publishGate hgate.leaves
  cases refusal with
  | some code => exact Durable.leaves_pure.mp hrest ▸ .refl
  | none =>
  have hpublishing : ∀ {n₂}, (publishCheckpoint op id index revision).Leaves n₁ n₂ →
      Writes P n₁ n₂ ∧ n₂.rows = n₁.rows ∧ n₂.requests = n₁.requests := by
    intro n₂ hleaves
    cases leaves_publishCheckpoint hleaves with
    | idle hsince => exact ⟨hsince.writes, Since.rows hsince, Since.requests hsince⟩
    | published hsince hfresh hlayer hcheckpoint hp =>
        have hunmet := unmet_of_publishGate hgate hfresh
        obtain ⟨r, hq, rfl⟩ := hsince
        exact ⟨(Since.repo hq).writes.tail (.publishRequest hinput (.repo hq) hpermissions
          (approved_since happroved rfl rfl) hunmet hlayer hcheckpoint hp), rfl, rfl⟩
  cases Durable.leaves_bind.mp hrest with
  | inl hpublish => exact (hpublishing hpublish).1
  | inr hanswered =>
  obtain ⟨outcome, n₂, hpublish, hanswered⟩ := hanswered
  obtain ⟨hwrites, hrows, hrequests⟩ := hpublishing hpublish.leaves
  cases outcome with
  | published number version tree =>
      obtain ⟨receipt, hreceipt, hlayer, hcheckpoint, houtcome⟩ := answers_publishCheckpoint hn hpublish
      have hrecorded : ∀ {n₃}, (persist id ⟨op, actor, .publish index revision⟩ permissions.epoch
          (.publishOutcome (.published number version tree)) none).Leaves n₂ n₃ → Writes P n₁ n₃ := by
        intro n₃ hleaves
        obtain rfl | ⟨_, rfl⟩ | ⟨_, hnone, _⟩ := leaves_persist hleaves
        · exact hwrites
        · exact hwrites.tail (.published hinput hpermissions (approved_since happroved hrows hrequests) hreceipt hlayer
            hcheckpoint houtcome)
        · cases hnone
      cases Durable.leaves_bind.mp hanswered with
      | inl hpersist => exact hrecorded hpersist
      | inr hdone =>
          obtain ⟨_, n₃, hpersist, hpure⟩ := hdone
          exact Durable.leaves_pure.mp hpure ▸ hrecorded hpersist.leaves
  | conflict paths => exact Durable.leaves_pure.mp hanswered ▸ hwrites
  | layerStale head => exact Durable.leaves_pure.mp hanswered ▸ hwrites
  | refused code => exact Durable.leaves_pure.mp hanswered ▸ hwrites

theorem writes_publishRequest (h : (publishRequest caller op id index base).Leaves n n') (hn : n.repo.Hosted)
    (hinput : P n (.review caller (.publishRequest op id index base))) : Writes P n n' := by
  unfold publishRequest at h
  cases Durable.leaves_bind.mp h with
  | inl htarget => exact leaves_target htarget ▸ .refl
  | inr hrest =>
  obtain ⟨⟨grant, permissions, review⟩, n₁, htarget, hrest⟩ := hrest
  obtain ⟨rfl, hauthorize, hknown, hrestore⟩ := answers_target.mp htarget
  simp only [leaves_encoded_bind] at hrest
  obtain rfl | ⟨actor, _, hrest⟩ := hrest
  · exact .refl
  split at hrest
  · exact Durable.leaves_pure.mp hrest ▸ .refl
  rename_i revision hpinned
  split at hrest
  · exact Durable.leaves_pure.mp hrest ▸ .refl
  cases Durable.leaves_bind.mp hrest with
  | inl hdecide => exact leaves_decideCommand hdecide ▸ .refl
  | inr hdecided =>
  obtain ⟨decision, n₂, hdecide, hdecided⟩ := hdecided
  obtain rfl := leaves_decideCommand hdecide.leaves
  cases decision with
  | replayed reply => exact Durable.leaves_pure.mp hdecided ▸ .refl
  | refused code => exact Durable.leaves_pure.mp hdecided ▸ .refl
  | accepted next =>
      obtain ⟨_, hfresh, applied, happly, _⟩ := answers_decideCommand.mp hdecide
      exact writes_publishAccepted hdecided hn hinput (Caller.permissions_of_authorize hauthorize)
        ⟨hfresh, hknown, hrestore, rfl, applied, happly⟩

end publish

theorem leaves_readRequest {caller : Caller} (h : (readRequest caller id : NodeM Id _).Leaves n n') : n' = n := by
  unfold readRequest at h
  simp only [leaves_look_bind, leaves_encoded_bind] at h
  obtain hsame | ⟨⟨grant, permissions⟩, _, h⟩ := h
  · exact hsame
  simp only at h
  split at h
  · exact leaves_throwNew.mp h
  · simp only [Durable.leaves_read_bind, leaves_native_bind] at h
    obtain hsame | ⟨stored, _, hsame | ⟨review, _, hpure⟩⟩ := h
    · exact hsame
    · exact hsame
    · exact Durable.leaves_pure.mp hpure

theorem writes_of_judges {caller : Caller} {message : ReviewMessage Id} (h : (handle caller message).Leaves n n')
    (hn : n.repo.Hosted) (hinput : P n (.review caller message)) (hjudges : message.Judges id) : Writes P n n' := by
  obtain ⟨scope, op, action, hhandle, hop, hmessage, hprepares⟩ := exists_command caller hn hjudges
  exact writes_command (hhandle ▸ h) hn hinput hop hmessage hprepares

theorem writes_handle {caller : Caller} {message : ReviewMessage Id} (h : (handle caller message).Leaves n n')
    (hn : n.repo.Hosted) (hinput : P n (.review caller message)) : Writes P n n' := by
  cases message with
  | openRequest op id layer checkpoint base => exact writes_openRequest h hn hinput
  | revise op id expected checkpoint base => exact writes_of_judges h hn hinput (show id = id from rfl)
  | approve op id index => exact writes_of_judges h hn hinput (show id = id from rfl)
  | comment op id index body => exact writes_of_judges h hn hinput (show id = id from rfl)
  | publishRequest op id index base => exact writes_publishRequest h hn hinput
  | readRequest id => exact leaves_readRequest h ▸ .refl

end Reviewing

namespace FileWorldLog

open Reviewing

variable [IdBytes Id] {P : FileWorldLog Id → Input Id → Prop} {n n' : FileWorldLog Id}

/-! ### The other inputs -/

omit [IdBytes Id] in
theorem leaves_checkSubject {report : CheckReport Id} (h : (Checks.checkSubject report).Leaves n n') :
    Since n n' := by
  unfold Checks.checkSubject at h
  split at h
  · exact Durable.leaves_pure.mp h ▸ .refl n
  rw [leaves_tryNative_bind] at h
  split at h
  · exact Durable.leaves_pure.mp h ▸ .refl n
  cases Durable.leaves_bind.mp h with
  | inl htree => exact leaves_checkpointTree htree
  | inr hrest =>
      obtain ⟨tree, n₁, htree, hrest⟩ := hrest
      have hsince := leaves_checkpointTree htree.leaves
      split at hrest <;> exact Durable.leaves_pure.mp hrest ▸ hsince

omit [LinearOrder Id] [Encoding Id] [IdBytes Id] in
/-- An operation without a stored result has none. -/
theorem ne_of_recorded {results : List (CheckResult Id)} {op : OperationId}
    (h : Checks.recorded results op = none) : ∀ stored ∈ results, stored.operation ≠ op := by
  intro stored hmem hop
  unfold Checks.recorded at h
  rw [Option.map_eq_none_iff, List.find?_eq_none] at h
  obtain ⟨i, hi⟩ := List.mem_iff_getElem?.mp hmem
  have hm : (stored, i) ∈ results.zipIdx := List.mem_zipIdx_iff_getElem?.mpr hi
  simpa [hop] using h _ hm

theorem writes_report {caller : Caller} {report : CheckReport Id} (h : (Checks.report caller report).Leaves n n') :
    Writes P n n' := by
  unfold Checks.report at h
  rw [leaves_encoded_bind] at h
  obtain rfl | ⟨⟨grant, permissions⟩, _, h⟩ := h
  · exact .refl
  simp only at h
  split at h
  · exact leaves_throwNew.mp h ▸ .refl
  rename_i reporter hreporter
  simp only [leaves_encoded_bind, leaves_look_bind] at h
  obtain rfl | ⟨bytes, _, h⟩ := h
  · exact .refl
  split at h
  · split at h <;> exact Durable.leaves_pure.mp h ▸ .refl
  rename_i hfresh
  split at h
  · exact Durable.leaves_pure.mp h ▸ .refl
  split at h
  · exact Durable.leaves_pure.mp h ▸ .refl
  cases Durable.leaves_bind.mp h with
  | inl hsubject => exact (leaves_checkSubject hsubject).writes
  | inr hrest =>
  obtain ⟨refusal, n₁, hsubject, hrest⟩ := hrest
  have hsince := leaves_checkSubject hsubject.leaves
  cases refusal with
  | some code => exact Durable.leaves_pure.mp hrest ▸ hsince.writes
  | none =>
      simp only [leaves_native_bind] at hrest
      obtain rfl | ⟨stored, _, hrest⟩ := hrest
      · exact hsince.writes
      split at hrest
      · cases Durable.leaves_transact.mp hrest with
        | inl hsame => exact hsame ▸ hsince.writes
        | inr hdone =>
            obtain ⟨_, hok⟩ := hdone
            obtain ⟨_, rfl⟩ := Prod.mk.inj (Except.ok.inj hok)
            obtain ⟨r, hq, rfl⟩ := hsince
            exact (Since.repo hq).writes.tail (.result (ne_of_recorded hfresh))
      · exact Durable.leaves_pure.mp hrest ▸ hsince.writes

theorem writes_store {α : Type} {f : Repository Id → Except (Error Id) (α × Repository Id)}
    (h : (store f).Leaves n n') (hquiet : ∀ a r, f n.repo = .ok (a, r) → Quiet n.repo r) : Writes P n n' := by
  cases leaves_store.mp h with
  | inl hsame => exact hsame ▸ .refl
  | inr hdone =>
      obtain ⟨a, r, hok, rfl⟩ := hdone
      exact .single (.quiet (hquiet a r hok))

omit [Encoding Id] [IdBytes Id] in
theorem leaves_dropped {α : Type} {x : NodeM Id α} (h : (do let _ ← x : NodeM Id Unit).Leaves n n') :
    x.Leaves n n' := by
  cases Durable.leaves_bind.mp h with
  | inl h => exact h
  | inr h =>
      obtain ⟨_, n₁, hanswers, hpure⟩ := h
      exact Durable.leaves_pure.mp hpure ▸ hanswers.leaves

theorem writes_seed {op : OperationId} {layer : LayerId} {changes : SparseChanges Id}
    (h : (seed op layer changes).Leaves n n') : Writes P n n' := by
  unfold seed at h
  simp only [leaves_native_bind] at h
  obtain rfl | ⟨state, _, h⟩ := h
  · exact .refl
  split at h
  · rename_i head _
    have hcaptured : ∀ {n₁}, (store (fun r => r.captureLayer op head changes none)).Leaves n n₁ →
        Writes P n n₁ := fun hleaves => writes_store hleaves (fun _ _ hok => quiet_captureLayer hok)
    cases Durable.leaves_bind.mp h with
    | inl hcapture => exact hcaptured hcapture
    | inr hrest =>
        obtain ⟨update, n₁, hcapture, hrest⟩ := hrest
        split at hrest
        · exact Durable.leaves_pure.mp hrest ▸ hcaptured hcapture.leaves
        · exact Durable.leaves_fail.mp hrest ▸ hcaptured hcapture.leaves
  · exact Durable.leaves_fail.mp h ▸ .refl

theorem writes_setRequired {required : List RequiredCheck} (h : (Checks.setRequired required).Leaves n n') :
    Writes P n n' := by
  unfold Checks.setRequired at h
  split at h
  · exact Durable.leaves_fail.mp h ▸ .refl
  · obtain rfl | rfl := leaves_update.mp h
    · exact .refl
    · exact .single (.policy required)

theorem writes_appendCheckpoint {op : OperationId} {layer : LayerId} {parent : Option Id} {changes : Id}
    (h : (appendCheckpoint op layer parent changes).Leaves n n') : Writes P n n' := by
  cases Durable.leaves_transact.mp h with
  | inl hsame => exact hsame ▸ .refl
  | inr hdone =>
      obtain ⟨answer, hok⟩ := hdone
      split at hok
      · rename_i happend
        obtain ⟨_, rfl⟩ := Prod.mk.inj (Except.ok.inj hok)
        exact .single (.quiet (quiet_appendCheckpoint happend))
      · cases hok
      · cases hok
      · cases hok

theorem writes_createLayer {layer : LayerId} {base : VersionNumber} (h : (createLayer layer base).Leaves n n') :
    Writes P n n' := by
  unfold createLayer at h
  simp only [leaves_native_bind] at h
  obtain rfl | ⟨layerBase, _, h⟩ := h
  · exact .refl
  · exact writes_store h (fun _ _ hok => quiet_createLayer hok)

/-- Whatever an input leaves is reached by writes. -/
theorem writes_of_leaves {input : Input Id} (h : (Input.run input).Leaves n n') (hn : n.repo.Hosted)
    (hinput : P n input) : Writes P n n' := by
  cases input with
  | review caller message => exact writes_handle (leaves_dropped h) hn hinput
  | publishLayer request => exact writes_publishLayer (leaves_dropped h) hn hinput
  | append op layer parent changes => exact writes_appendCheckpoint (leaves_dropped h)
  | storeChanges id changes =>
      obtain rfl | hdone := leaves_update.mp h
      · exact .refl
      · split at hdone
        · exact hdone ▸ .refl
        · exact hdone ▸ .single (.changes _)
  | report caller result => exact writes_report (leaves_dropped h)
  | setRequired required => exact writes_setRequired h
  | putBlob bytes => exact writes_store (leaves_dropped h) (fun _ _ hok => quiet_putBlob hok)
  | putTree chunk => exact writes_store (leaves_dropped h) (fun _ _ hok => quiet_putTree hok)
  | createLayer layer base => exact writes_createLayer (leaves_dropped h)
  | seed op layer changes => exact writes_seed (leaves_dropped h)
  | advance op expected tree =>
      obtain rfl | ⟨outcome, r, hok, rfl⟩ := leaves_store.mp (leaves_dropped h)
      · exact .refl
      · exact .single (.advance hinput hok)
  | traces restricted origin forkTraces omitted =>
      obtain rfl | rfl := leaves_update.mp h
      · exact .refl
      · exact .single (.traces restricted origin forkTraces omitted)

/-! ### Runs -/

theorem Write.system_run (h : Write P n n') (plans : List (PublishCall Id × Plan Id)) :
    ∃ plans', System.Run (⟨n.repo, plans⟩ : System Id) ⟨n'.repo, plans'⟩ := by
  cases h with
  | quiet hq => exact ⟨plans, hq.run plans⟩
  | advance _ hok => exact ⟨plans, .single (.transact (.advanceToTree hok))⟩
  | publishLayer _ _ hp => exact hp.run plans
  | publishRequest _ _ _ _ _ _ _ hp => exact hp.run plans
  | changes _ => exact ⟨plans, .refl⟩
  | policy _ => exact ⟨plans, .refl⟩
  | traces _ _ _ _ => exact ⟨plans, .refl⟩
  | result _ => exact ⟨plans, .refl⟩
  | decided _ _ _ _ => exact ⟨plans, .refl⟩
  | published _ _ _ _ _ _ _ => exact ⟨plans, .refl⟩
  | opened _ _ _ _ _ => exact ⟨plans, .refl⟩
  | reviewed _ _ _ _ _ _ _ => exact ⟨plans, .refl⟩

theorem Write.hosted (h : Write P n n') (hn : n.repo.Hosted) : n'.repo.Hosted := by
  obtain ⟨plans, hreach⟩ := hn
  obtain ⟨plans', hrun⟩ := h.system_run plans
  exact ⟨plans', hreach.run hrun⟩

theorem Write.later (h : Write P n n') (hn : n.repo.Hosted) : Later n.repo n'.repo := by
  obtain ⟨plans, hreach⟩ := hn
  obtain ⟨plans', hrun⟩ := h.system_run plans
  exact (hrun.later hreach.sound).1

theorem Writes.hosted (h : Writes P n n') (hn : n.repo.Hosted) : n'.repo.Hosted := by
  induction h with
  | refl => exact hn
  | tail _ hwrite ih => exact hwrite.hosted ih

theorem Writes.later (h : Writes P n n') (hn : n.repo.Hosted) : Later n.repo n'.repo := by
  induction h with
  | refl => exact .refl _
  | tail hwrites hwrite ih => exact ih.trans (hwrite.later (Writes.hosted hwrites hn))

theorem writes_of_run (h : Run P n n') (hn : n.repo.Hosted) : Writes P n n' := by
  induction h with
  | refl => exact .refl
  | tail _ hstep ih =>
      obtain ⟨input, hinput, hleaves⟩ := hstep
      exact ih.trans (writes_of_leaves hleaves (ih.hosted hn) hinput)

omit [IdBytes Id] in
theorem hosted_initial (identity : Id) : (initial identity).repo.Hosted := ⟨[], identity, .refl⟩

theorem Reachable.hosted (h : Reachable P n) : n.repo.Hosted := by
  obtain ⟨identity, hrun⟩ := h
  exact (writes_of_run hrun (hosted_initial identity)).hosted (hosted_initial identity)

/-- What every write keeps stays over any writes. -/
theorem Writes.invariant {I : FileWorldLog Id → Prop} (h : Writes P n n') (hn : n.repo.Hosted) (hI : I n)
    (hkeep : ∀ n n', n.repo.Hosted → I n → Write P n n' → I n') : I n' := by
  induction h with
  | refl => exact hI
  | tail hwrites hwrite ih => exact hkeep _ _ (Writes.hosted hwrites hn) ih hwrite

/-- What holds of a new node and is kept by every write, holds of every reachable node. -/
theorem Reachable.invariant {I : FileWorldLog Id → Prop} (h : Reachable P n)
    (hinitial : ∀ identity, I (initial identity))
    (hkeep : ∀ n n', n.repo.Hosted → I n → Write P n n' → I n') : I n := by
  obtain ⟨identity, hrun⟩ := h
  have hn : (initial identity).repo.Hosted := hosted_initial identity
  exact (writes_of_run hrun hn).invariant hn (hinitial identity) hkeep

end FileWorldLog

end Javelin
