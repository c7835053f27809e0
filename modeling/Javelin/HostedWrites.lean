import Javelin.Publishes

/-! # What a node writes

`Write P n n'` is one write of a node, with all that was checked before it.  Whatever a handler leaves, at its
end or when it is stopped, is reached by such writes (`writes_of_leaves`), so an invariant of nodes is shown
for each kind of write. -/

namespace Javelin

open KeyedList Collaboration Identity Protocol Codec Repository

variable {Id : Type} [LinearOrder Id] [Encoding Id]

namespace FileWorldLog

open Reviewing

/-- Only quiet writes of the repository lie between. -/
def Since (n₀ n : FileWorldLog Id) : Prop := ∃ r, Quiet n₀.repo r ∧ n = { n₀ with repo := r }

theorem Since.refl (n : FileWorldLog Id) : Since n n := ⟨n.repo, .refl _, rfl⟩

theorem Since.repo {n : FileWorldLog Id} {r : Repository Id} (h : Quiet n.repo r) :
    Since n { n with repo := r } := ⟨r, h, rfl⟩

theorem Since.quiet {n₀ n : FileWorldLog Id} (h : Since n₀ n) : Quiet n₀.repo n.repo := by
  obtain ⟨r, hq, rfl⟩ := h
  exact hq

theorem Since.trans {n₀ n₁ n₂ : FileWorldLog Id} (h : Since n₀ n₁) (h' : Since n₁ n₂) : Since n₀ n₂ := by
  obtain ⟨r, hq, rfl⟩ := h
  obtain ⟨r', hq', rfl⟩ := h'
  exact ⟨r', hq.trans hq', rfl⟩

/-- The required checks are met by the tree of a checkpoint. -/
def Gated (n : FileWorldLog Id) (checkpoint : Id) : Prop :=
  n.policy = [] ∨ ∃ tree, TreeOf n.repo checkpoint tree ∧ Checks.unmet n n.policy tree none = none

/-- What was checked before a `PublishLayer` publishes. -/
structure LayerReady (n₀ n : FileWorldLog Id) (request : PublishLayer Id) (head : LayerHead Id) : Prop where
  since : Since n₀ n
  unreserved : isReviewLayer request.layer = false
  undecided : n.decided.get? request.operation = none
  active : n₀.repo.layerStateIn request.layer = .ok (.active head)
  checkpoint : head.checkpoint = request.expected
  base : baseOf head n₀.repo = .ok request.base
  gated : Gated n head.checkpoint

/-- What a recorded decision was drawn from. -/
inductive Decides (n : FileWorldLog Id) (request : PublishLayer Id) : Codec.PublishOutcome Id → Prop
  | receipt {receipt} : n.repo.publication request.operation = .ok (some receipt) →
      receiptMatches receipt request n.repo = .ok true → Decides n request receipt.outcome.toWire
  | refused {code} : n.repo.publications.get? request.operation = none → Decides n request (.refused code)
  | layerStale {head} : n.repo.publications.get? request.operation = none → Decides n request (.layerStale head)

variable [IdBytes Id]

/-- What was checked of a command that publishes a revision. -/
structure Approved (n : FileWorldLog Id) (permissions : AppliedPermissions) (id : RequestId)
    (command : Command Id) (index : ℕ) (revision : RevisionRef Id) (review : Review Id) : Prop where
  fresh : recorded n command.operation = none
  known : n.requests.get? id ≠ none
  restored : restore n permissions.repository id = .ok review
  action : command.action = .publish index revision
  accepted : ∃ applied, review.apply command permissions = .ok applied

/-- What was checked of any other command. -/
structure Reviewed (n : FileWorldLog Id) (permissions : AppliedPermissions) (id : RequestId)
    (command : Command Id) (stored review : Review Id) (applied : Applied Id) : Prop where
  fresh : recorded n command.operation = none
  restored : restore n permissions.repository id = .ok stored
  current : ∃ r : Repository Id, r.Hosted ∧ Quiet r n.repo ∧ settled stored r = .ok review
  accepted : review.apply command permissions = .ok applied
  ordinary : ∀ index revision, command.action ≠ .publish index revision
  tree : ∀ revision, (command.action = .open revision ∨ ∃ expected, command.action = .revise expected revision) →
    TreeOf n.repo revision.checkpoint revision.tree

/-- One write of a node. -/
inductive Write (P : FileWorldLog Id → Input Id → Prop) : FileWorldLog Id → FileWorldLog Id → Prop
  | quiet {n r} : Quiet n.repo r → Write P n { n with repo := r }
  | advance {n r op expected tree outcome} : P n (.advance op expected tree) →
      n.repo.advanceToTree op expected tree = .ok (outcome, r) → Write P n { n with repo := r }
  | changes {n} (changes) : Write P n { n with changes := changes }
  | policy {n} (policy) : Write P n { n with policy := policy }
  | traces {n} (restricted origin forkTraces omitted) : Write P n { n with
      restricted := restricted, origin := origin, forkTraces := forkTraces, omitted := omitted }
  | result {n result} : (∀ stored ∈ n.results, stored.operation ≠ result.operation) →
      Write P n { n with results := n.results ++ [result] }
  | publishLayer {n₀ n request head receipt r} : P n₀ (.publishLayer request) →
      LayerReady n₀ n request head → Publishes n.repo ⟨request.operation, head, request.attribution⟩ receipt r →
      Write P n { n with repo := r }
  | decided {n request outcome} : isReviewLayer request.layer = false →
      n.decided.get? request.operation = none → outcome.encode = .ok () → Decides n request outcome →
      Write P n { n with decided := n.decided.insert request.operation (request, outcome) }
  | publishRequest {n₀ n caller op id index base actor permissions revision review head receipt r} :
      P n₀ (.review caller (.publishRequest op id index base)) → Since n₀ n →
      caller.gate.permissions = some permissions →
      Approved n permissions id ⟨op, actor, .publish index revision⟩ index revision review →
      Checks.unmet n n.policy revision.tree (some permissions) = none →
      head.layer = revisionLayer Id id index → head.checkpoint = revision.checkpoint →
      Publishes n.repo ⟨op, head, .human⟩ receipt r → Write P n { n with repo := r }
  | published {n₀ n caller op id index base actor permissions revision review receipt number version tree} :
      P n₀ (.review caller (.publishRequest op id index base)) →
      caller.gate.permissions = some permissions →
      Approved n permissions id ⟨op, actor, .publish index revision⟩ index revision review →
      n.repo.publication op = .ok (some receipt) → receipt.expected.layer = revisionLayer Id id index →
      receipt.expected.checkpoint = revision.checkpoint →
      receipt.outcome.toWire = .published number version tree →
      Write P n { n with rows := n.rows ++ [⟨id, permissions.epoch, ⟨op, actor, .publish index revision⟩,
        .publishOutcome (.published number version tree)⟩] }
  | opened {n₀ n caller op id layer checkpoint base actor permissions revision stored review applied reply} :
      P n₀ (.review caller (.openRequest op id layer checkpoint base)) → Since n₀ n →
      caller.gate.permissions = some permissions →
      Reviewed n permissions id ⟨op, actor, .open revision⟩ stored review applied →
      n.requests.get? id = none →
      Write P n { n with
        requests := n.requests.insert id layer.text
        rows := n.rows ++ [⟨id, permissions.epoch, ⟨op, actor, .open revision⟩, reply⟩] }
  | reviewed {n₀ n caller message id permissions command stored review applied reply} :
      P n₀ (.review caller message) → Since n₀ n → message.operation = some command.operation →
      (∀ op id index base, message ≠ .publishRequest op id index base) →
      caller.gate.permissions = some permissions →
      Reviewed n permissions id command stored review applied → n.requests.get? id ≠ none →
      Write P n { n with rows := n.rows ++ [⟨id, permissions.epoch, command, reply⟩] }

/-- Any number of writes. -/
abbrev Writes (P : FileWorldLog Id → Input Id → Prop) (n n' : FileWorldLog Id) : Prop :=
  Relation.ReflTransGen (Write P) n n'

theorem Since.writes {P : FileWorldLog Id → Input Id → Prop} {n₀ n : FileWorldLog Id} (h : Since n₀ n) :
    Writes P n₀ n := by
  obtain ⟨r, hq, rfl⟩ := h
  exact .single (.quiet hq)

end FileWorldLog

namespace FileWorldLog

open Reviewing

variable {n n' : FileWorldLog Id} {checkpoint : Id}

theorem leaves_checkpointTree (h : (Checks.checkpointTree checkpoint).Leaves n n') : Since n n' := by
  unfold Checks.checkpointTree at h
  cases Durable.leaves_bind.mp h with
  | inl hread => exact leaves_native.mp hread ▸ .refl n
  | inr hrest =>
      obtain ⟨m, n₁, hanswers, hstore⟩ := hrest
      obtain ⟨_, rfl⟩ := answers_native.mp hanswers
      cases leaves_store.mp hstore with
      | inl hsame => exact hsame ▸ .refl _
      | inr hdone =>
          obtain ⟨_, r, hok, rfl⟩ := hdone
          exact .repo (quiet_putSnapshot hok)

theorem answers_checkpointTree {tree : Id} (h : (Checks.checkpointTree checkpoint).Answers n tree n')
    (hn : n.repo.Hosted) : Since n n' ∧ TreeOf n'.repo checkpoint tree := by
  refine ⟨leaves_checkpointTree h.leaves, ?_⟩
  unfold Checks.checkpointTree at h
  obtain ⟨m, n₁, hanswers, hstore⟩ := Durable.answers_bind.mp h
  obtain ⟨hm, rfl⟩ := answers_native.mp hanswers
  obtain ⟨r, hok, rfl⟩ := answers_store.mp hstore
  obtain ⟨S, hs⟩ := hn.sound
  exact treeOf_putSnapshot hs hm hok

/-! ### Publishing a Layer -/

theorem leaves_gate {permissions : Option AppliedPermissions}
    (h : (Checks.gate checkpoint permissions).Leaves n n') : Since n n' := by
  unfold Checks.gate at h
  cases Durable.leaves_bind.mp h with
  | inl hread => exact leaves_look.mp hread ▸ .refl n
  | inr hrest =>
      obtain ⟨required, n₁, hanswers, hrest⟩ := hrest
      obtain ⟨rfl, rfl⟩ := answers_look.mp hanswers
      split at hrest
      · exact Durable.leaves_pure.mp hrest ▸ .refl _
      · cases Durable.leaves_bind.mp hrest with
        | inl htree => exact leaves_checkpointTree htree
        | inr hlook =>
            obtain ⟨tree, n₂, htree, hlook⟩ := hlook
            exact leaves_look.mp hlook ▸ leaves_checkpointTree htree.leaves

theorem answers_gate (h : (Checks.gate checkpoint none).Answers n none n') (hn : n.repo.Hosted) :
    Since n n' ∧ Gated n' checkpoint := by
  refine ⟨leaves_gate h.leaves, ?_⟩
  unfold Checks.gate at h
  obtain ⟨required, n₁, hanswers, hrest⟩ := Durable.answers_bind.mp h
  obtain ⟨rfl, rfl⟩ := answers_look.mp hanswers
  split at hrest
  · rename_i hpolicy
    obtain ⟨_, rfl⟩ := Durable.answers_pure.mp hrest
    exact .inl hpolicy
  · obtain ⟨tree, n₂, htree, hlook⟩ := Durable.answers_bind.mp hrest
    obtain ⟨hunmet, rfl⟩ := answers_look.mp hlook
    obtain ⟨⟨r, _, rfl⟩, htreeOf⟩ := answers_checkpointTree htree hn
    exact .inr ⟨tree, htreeOf, hunmet.symm⟩

section publishLayer
variable {request : PublishLayer Id}

/-- What deciding a new operation can leave, and the answer if there is one. -/
inductive Deciding (n : FileWorldLog Id) (request : PublishLayer Id) :
    Option (Codec.PublishOutcome Id) → FileWorldLog Id → Prop
  | idle {n₁} : Since n n₁ → Deciding n request none n₁
  | refused {n₁ code} : Since n n₁ → Deciding n request (some (.refused code)) n₁
  | layerStale {n₁ head} : Since n n₁ → Deciding n request (some (.layerStale head)) n₁
  | published {n₁ head receipt r} (answer : Option (Codec.PublishOutcome Id)) : LayerReady n n₁ request head →
      Publishes n₁.repo ⟨request.operation, head, request.attribution⟩ receipt r →
      (answer = none ∨ answer = some receipt.outcome.toWire) →
      Deciding n request answer { n₁ with repo := r }

variable (hreview : isReviewLayer request.layer = false) (hundecided : n.decided.get? request.operation = none)
  (hfresh : n.repo.publications.get? request.operation = none) (hn : n.repo.Hosted)
include hreview hundecided hfresh hn

theorem ready_of_gate {n₁ : FileWorldLog Id} {head : LayerHead Id}
    (hstate : n.repo.layerStateIn request.layer = .ok (.active head)) (hexpected : head.checkpoint = request.expected)
    (hbase : baseOf head n.repo = .ok request.base)
    (hgate : (Checks.gate head.checkpoint none).Answers n none n₁) :
    LayerReady n n₁ request head ∧ n₁.repo.publications.get? request.operation = none := by
  obtain ⟨hsince, hgated⟩ := answers_gate hgate hn
  obtain ⟨r, hq, rfl⟩ := hsince
  exact ⟨⟨⟨r, hq, rfl⟩, hreview, hundecided, hstate, hexpected, hbase, hgated⟩, hq.publications ▸ hfresh⟩

theorem leaves_decidePublish (h : (decidePublish request).Leaves n n') : Deciding n request none n' := by
  unfold decidePublish at h
  cases Durable.leaves_bind.mp h with
  | inl hread => exact .idle (leaves_tryNative.mp hread ▸ .refl n)
  | inr hrest =>
  obtain ⟨state, n₁, hanswers, hrest⟩ := hrest
  obtain ⟨hstate, rfl⟩ := answers_tryNative.mp hanswers
  split at hrest
  · exact .idle (Durable.leaves_pure.mp hrest ▸ .refl _)
  · exact .idle (Durable.leaves_fail.mp hrest ▸ .refl _)
  · rename_i head
    split at hrest
    · exact .idle (Durable.leaves_pure.mp hrest ▸ .refl _)
    rename_i hexpected
    rw [not_not] at hexpected
    cases Durable.leaves_bind.mp hrest with
    | inl hread => exact .idle (leaves_native.mp hread ▸ .refl _)
    | inr hbased =>
    obtain ⟨base, n₂, hanswers, hbased⟩ := hbased
    obtain ⟨hbase, rfl⟩ := answers_native.mp hanswers
    split at hbased
    · exact .idle (Durable.leaves_pure.mp hbased ▸ .refl _)
    rename_i hsame
    rw [not_not] at hsame
    subst hsame
    cases Durable.leaves_bind.mp hbased with
    | inl hgate => exact .idle (leaves_gate hgate)
    | inr hgated =>
    obtain ⟨refusal, n₃, hgate, hgated⟩ := hgated
    cases refusal with
    | some code => exact .idle (Durable.leaves_pure.mp hgated ▸ leaves_gate hgate.leaves)
    | none =>
        obtain ⟨hready, hfresh'⟩ := ready_of_gate hreview hundecided hfresh hn hstate.symm hexpected hbase hgate
        have hwritten : ∀ {n₄}, (publishNative ⟨request.operation, head, request.attribution⟩).Leaves n₃ n₄ →
            Deciding n₂ request none n₄ := by
          intro n₄ hleaves
          cases leaves_tryStore.mp hleaves with
          | inl hsame => exact hsame ▸ .idle hready.since
          | inr hdone =>
              obtain ⟨receipt, r, hok, rfl⟩ := hdone
              exact .published none hready ⟨hfresh', hok⟩ (.inl rfl)
        cases Durable.leaves_bind.mp hgated with
        | inl hpublish => exact hwritten hpublish
        | inr hanswer =>
            obtain ⟨published, n₄, hpublished, hanswer⟩ := hanswer
            have hsame : n' = n₄ := by
              unfold answerPublish at hanswer
              split at hanswer
              · exact Durable.leaves_pure.mp hanswer
              · split at hanswer
                · exact Durable.leaves_pure.mp hanswer
                · exact Durable.leaves_fail.mp hanswer
            exact hsame ▸ hwritten hpublished.leaves
  · exact .idle (Durable.leaves_pure.mp hrest ▸ .refl _)
  · exact .idle (Durable.leaves_pure.mp hrest ▸ .refl _)

theorem answers_decidePublish {outcome : Codec.PublishOutcome Id}
    (h : (decidePublish request).Answers n outcome n') : Deciding n request (some outcome) n' := by
  unfold decidePublish at h
  obtain ⟨state, n₁, hanswers, hrest⟩ := Durable.answers_bind.mp h
  obtain ⟨hstate, rfl⟩ := answers_tryNative.mp hanswers
  split at hrest
  · obtain ⟨rfl, rfl⟩ := Durable.answers_pure.mp hrest
    exact .refused (.refl _)
  · exact absurd hrest Durable.answers_fail
  · rename_i head
    split at hrest
    · obtain ⟨rfl, rfl⟩ := Durable.answers_pure.mp hrest
      exact .layerStale (.refl _)
    rename_i hexpected
    rw [not_not] at hexpected
    obtain ⟨base, n₂, hanswers, hbased⟩ := Durable.answers_bind.mp hrest
    obtain ⟨hbase, rfl⟩ := answers_native.mp hanswers
    split at hbased
    · obtain ⟨rfl, rfl⟩ := Durable.answers_pure.mp hbased
      exact .refused (.refl _)
    rename_i hsame
    rw [not_not] at hsame
    subst hsame
    obtain ⟨refusal, n₃, hgate, hgated⟩ := Durable.answers_bind.mp hbased
    cases refusal with
    | some code =>
        obtain ⟨rfl, rfl⟩ := Durable.answers_pure.mp hgated
        exact .refused (leaves_gate hgate.leaves)
    | none =>
        obtain ⟨hready, hfresh'⟩ := ready_of_gate hreview hundecided hfresh hn hstate.symm hexpected hbase hgate
        obtain ⟨published, n₄, hpublished, hanswer⟩ := Durable.answers_bind.mp hgated
        cases answers_tryStore.mp hpublished with
        | inl hdone =>
            obtain ⟨receipt, r, rfl, hok, rfl⟩ := hdone
            obtain ⟨rfl, rfl⟩ := Durable.answers_pure.mp hanswer
            exact .published _ hready ⟨hfresh', hok⟩ (.inr rfl)
        | inr hfailed =>
            obtain ⟨e, rfl, _, rfl⟩ := hfailed
            unfold answerPublish at hanswer
            split at hanswer
            · rename_i hcode
              cases hcode
            · split at hanswer
              · obtain ⟨rfl, rfl⟩ := Durable.answers_pure.mp hanswer
                exact .refused hready.since
              · exact absurd hanswer Durable.answers_fail
  · obtain ⟨rfl, rfl⟩ := Durable.answers_pure.mp hrest
    exact .refused (.refl _)
  · obtain ⟨rfl, rfl⟩ := Durable.answers_pure.mp hrest
    exact .refused (.refl _)

omit hreview hundecided hfresh in
/-- A receipt that was just stored answers its request. -/
theorem LayerReady.decides {n₁ : FileWorldLog Id} {head : LayerHead Id} {receipt : PublicationReceipt Id}
    {r : Repository Id} (hready : LayerReady n n₁ request head)
    (hp : Publishes n₁.repo ⟨request.operation, head, request.attribution⟩ receipt r) :
    Decides { n₁ with repo := r } request receipt.outcome.toWire := by
  have hn₁ := hn.quiet hready.since.quiet
  obtain ⟨_, hexpected, hattribution⟩ := hp.named hn₁
  refine .receipt (hp.publication hn₁) ?_
  have hlater := (hready.since.quiet.later hn).trans (hp.later hn₁)
  have hbase : baseOf receipt.expected r = .ok request.base := by
    have hbase := hready.base
    unfold baseOf at hbase ⊢
    obtain ⟨checkpoint, hread, hpure⟩ := except_bind_eq_ok.mp hbase
    rw [hexpected, except_bind_of_ok (hn.readDeep_later (hn₁.publishes hp) hlater hread), hpure]
  have hlayer : receipt.expected.layer = request.layer := hexpected ▸ layer_of_active hready.active
  have hcheckpoint : receipt.expected.checkpoint = request.expected := hexpected ▸ hready.checkpoint
  unfold receiptMatches
  rw [if_pos ⟨hlayer, hcheckpoint, hattribution⟩, except_bind_of_ok hbase]
  exact congrArg Except.ok (decide_eq_true rfl)

omit [Encoding Id] hreview hundecided hfresh hn in
theorem leaves_settle {outcome : Codec.PublishOutcome Id} (h : (settle request outcome).Leaves n n') :
    n' = n ∨ outcome.encode = .ok () ∧
      n' = { n with decided := n.decided.insert request.operation (request, outcome) } := by
  unfold settle record at h
  have hdone : ∀ {n₁}, (do
      let _ ← encoded outcome.encode
      update (fun n => { n with decided := n.decided.insert request.operation (request, outcome) }) :
        NodeM Id Unit).Leaves n n₁ → n₁ = n ∨ outcome.encode = .ok () ∧
      n₁ = { n with decided := n.decided.insert request.operation (request, outcome) } := by
    intro n₁ hleaves
    cases Durable.leaves_bind.mp hleaves with
    | inl hencoded => exact .inl (leaves_encoded.mp hencoded)
    | inr hrest =>
        obtain ⟨_, n₂, hencoded, hupdate⟩ := hrest
        obtain ⟨hok, rfl⟩ := answers_encoded.mp hencoded
        exact (leaves_update.mp hupdate).imp_right (fun hsame => ⟨hok, hsame⟩)
  cases Durable.leaves_bind.mp h with
  | inl hrecord => exact hdone hrecord
  | inr hrest =>
      obtain ⟨_, n₂, hrecord, hpure⟩ := hrest
      exact Durable.leaves_pure.mp hpure ▸ hdone hrecord.leaves

end publishLayer

variable [IdBytes Id] {P : FileWorldLog Id → Input Id → Prop}

/-- What deciding leaves is reached by writes, and an answer can be recorded. -/
theorem Deciding.writes {request : PublishLayer Id} {answer : Option (Codec.PublishOutcome Id)}
    (h : Deciding n request answer n') (hn : n.repo.Hosted) (hinput : P n (.publishLayer request))
    (hfresh : n.repo.publications.get? request.operation = none) :
    Writes P n n' ∧ n'.decided = n.decided ∧ ∀ outcome, answer = some outcome → Decides n' request outcome := by
  have hfree : ∀ {n₁}, Since n n₁ → n₁.repo.publications.get? request.operation = none := by
    intro n₁ hsince
    rw [hsince.quiet.publications]
    exact hfresh
  have hsame : ∀ {n₁}, Since n n₁ → n₁.decided = n.decided := by
    intro n₁ hsince
    obtain ⟨r, _, rfl⟩ := hsince
    rfl
  cases h with
  | idle hsince => exact ⟨hsince.writes, hsame hsince, nofun⟩
  | refused hsince =>
      refine ⟨hsince.writes, hsame hsince, fun outcome houtcome => ?_⟩
      obtain rfl := Option.some.inj houtcome
      exact .refused (hfree hsince)
  | layerStale hsince =>
      refine ⟨hsince.writes, hsame hsince, fun outcome houtcome => ?_⟩
      obtain rfl := Option.some.inj houtcome
      exact .layerStale (hfree hsince)
  | published answer hready hp hanswer =>
      have hdecided := hsame hready.since
      refine ⟨hready.since.writes.tail (.publishLayer hinput hready hp), hdecided, fun outcome houtcome => ?_⟩
      cases hanswer with
      | inl hnone => cases hnone.symm.trans houtcome
      | inr hsome =>
          obtain rfl := Option.some.inj (hsome.symm.trans houtcome)
          exact hready.decides hn hp

theorem writes_settle {request : PublishLayer Id} {outcome : Codec.PublishOutcome Id}
    (h : (settle request outcome).Leaves n n') (hreview : isReviewLayer request.layer = false)
    (hundecided : n.decided.get? request.operation = none) (hdecides : Decides n request outcome) :
    Writes P n n' := by
  cases leaves_settle h with
  | inl hsame => exact hsame ▸ .refl
  | inr hdone =>
      obtain ⟨hencode, rfl⟩ := hdone
      exact .single (.decided hreview hundecided hencode hdecides)

theorem writes_publish {request : PublishLayer Id} (h : (publish request).Leaves n n') (hn : n.repo.Hosted)
    (hinput : P n (.publishLayer request)) (hreview : isReviewLayer request.layer = false) : Writes P n n' := by
  unfold publish at h
  cases Durable.leaves_bind.mp h with
  | inl hencoded => exact leaves_encoded.mp hencoded ▸ .refl
  | inr hrest =>
  obtain ⟨_, n₁, hencoded, hrest⟩ := hrest
  obtain ⟨_, rfl⟩ := answers_encoded.mp hencoded
  cases Durable.leaves_bind.mp hrest with
  | inl hlook => exact leaves_look.mp hlook ▸ .refl
  | inr hfound =>
  obtain ⟨found, n₂, hlook, hfound⟩ := hfound
  obtain ⟨rfl, rfl⟩ := answers_look.mp hlook
  cases hdecided : n₂.decided.get? request.operation with
  | some stored =>
      obtain ⟨recorded, outcome⟩ := stored
      rw [hdecided] at hfound
      simp only at hfound
      split at hfound
      · exact Durable.leaves_pure.mp hfound ▸ .refl
      · exact Durable.leaves_pure.mp hfound ▸ .refl
  | none =>
      rw [hdecided] at hfound
      cases Durable.leaves_bind.mp hfound with
      | inl hnative => exact leaves_native.mp hnative ▸ .refl
      | inr hreceipt =>
      obtain ⟨stored, n₃, hnative, hreceipt⟩ := hreceipt
      obtain ⟨hpublication, rfl⟩ := answers_native.mp hnative
      cases stored with
      | some receipt =>
          cases Durable.leaves_bind.mp hreceipt with
          | inl hmatch => exact leaves_native.mp hmatch ▸ .refl
          | inr hmatched =>
          obtain ⟨matched, n₄, hmatch, hmatched⟩ := hmatched
          obtain ⟨hmatches, rfl⟩ := answers_native.mp hmatch
          split at hmatched
          · rename_i htrue
            rw [htrue] at hmatches
            exact writes_settle hmatched hreview hdecided (.receipt hpublication hmatches)
          · exact Durable.leaves_pure.mp hmatched ▸ .refl
      | none =>
          have hfresh := publication_eq_none.mp hpublication
          cases Durable.leaves_bind.mp hreceipt with
          | inl hdecide =>
              exact ((leaves_decidePublish hreview hdecided hfresh hn hdecide).writes hn hinput hfresh).1
          | inr hsettle =>
              obtain ⟨outcome, n₄, hdecide, hsettle⟩ := hsettle
              obtain ⟨hwrites, hsame, hdecides⟩ :=
                (answers_decidePublish hreview hdecided hfresh hn hdecide).writes hn hinput hfresh
              rw [← hsame] at hdecided
              exact hwrites.trans (writes_settle hsettle hreview hdecided (hdecides outcome rfl))

theorem writes_publishLayer {request : PublishLayer Id} (h : (publishLayer request).Leaves n n')
    (hn : n.repo.Hosted) (hinput : P n (.publishLayer request)) : Writes P n n' := by
  unfold publishLayer at h
  split at h
  · exact Durable.leaves_pure.mp h ▸ .refl
  · rename_i hreview
    exact writes_publish h hn hinput (Bool.eq_false_iff.mpr hreview)

end FileWorldLog

end Javelin
