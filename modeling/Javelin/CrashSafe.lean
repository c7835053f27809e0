import Javelin.OneDecision

/-! # Reviewed publishes and crashes

A node that stops between the World publish of a revision and the row of its Publish leaves a request that is open
in its rows.  `Standing` is what every run keeps of such a request: its published revision is its current one, so
nothing but its Publish is accepted any more.  `Held` follows the lost record until a retry completes it; a command
of another request that claims the operation first (`Unclaimed`) keeps it from being completed.
`Reachable.crash_safe` puts both together. -/

namespace Javelin

open KeyedList Collaboration Identity Protocol Codec Repository

variable {Id : Type} [LinearOrder Id] [Encoding Id]

theorem Collaboration.RequestId.slash_not_mem (id : RequestId) : slash ∉ id.text := by
  intro hm
  have hslash := id.valid.2.2 slash hm
  revert hslash
  decide

/-! ### Restored requests -/

namespace Collaboration.Review

omit [Encoding Id] in
/-- The request in another repository. -/
def inRepository (r : Review Id) (repository : RepositoryId) : Review Id := { r with repository := repository }

omit [Encoding Id] in
theorem act_inRepository (r : Review Id) (repository : RepositoryId) (actor : PrincipalId) (action : Action Id) :
    (r.inRepository repository).act actor action = (r.act actor action).map (·.inRepository repository) := by
  have hopened : (r.inRepository repository).openRevision = r.openRevision := rfl
  have hok : ∀ {α : Type} (f : Revision Id → Except Failure α) (current : Revision Id),
      ((.ok current : Except Failure (Revision Id)) >>= f) = f current := fun _ _ => rfl
  cases action with
  | «open» revision =>
      unfold act pushRevision
      simp only [apply_ite (Except.map _)]
      rfl
  | revise expected revision =>
      unfold act pushRevision
      simp only [hopened]
      cases r.openRevision with
      | error e => rfl
      | ok current =>
          simp only [hok, apply_ite (Except.map _)]
          rfl
  | approve index revision =>
      unfold act
      simp only [hopened]
      cases r.openRevision with
      | error e => rfl
      | ok current =>
          have happroved : (r.inRepository repository).approveLast actor =
              (r.approveLast actor).inRepository repository := by
            have hcurrent : (r.inRepository repository).current = r.current := rfl
            unfold approveLast
            rw [hcurrent]
            cases r.current <;> rfl
          simp only [hok, apply_ite (Except.map _), happroved]
          rfl
  | comment index body =>
      unfold act
      simp only [hopened]
      cases r.openRevision with
      | error e => rfl
      | ok current =>
          simp only [hok, apply_ite (Except.map _)]
          rfl
  | publish index revision =>
      unfold act
      simp only [hopened]
      cases r.openRevision <;> rfl
  | close index =>
      unfold act
      simp only [hopened]
      cases r.openRevision with
      | error e => rfl
      | ok current =>
          simp only [hok, apply_ite (Except.map _)]
          rfl

omit [Encoding Id] in
/-- What a request that was restored is like: its revisions are numbered, and it has an author once it has one. -/
structure Regular (r : Review Id) : Prop where
  numbered : r.revisions.map Revision.index = List.range' 1 r.revisions.length
  begun : r.author = none → r.revisions = []

omit [LinearOrder Id] [Encoding Id] in
theorem Acted.regular {r next : Review Id} {actor : PrincipalId} {action : Action Id} (h : Acted r actor action next)
    (hr : r.Regular) : next.Regular := by
  have hpush : ∀ revision, (r.revisions ++ [(⟨r.revisions.length + 1, revision, []⟩ : Revision Id)]).map Revision.index =
      List.range' 1 (r.revisions ++ [(⟨r.revisions.length + 1, revision, []⟩ : Revision Id)]).length := by
    intro revision
    rw [List.map_append, hr.numbered, List.length_append, List.length_singleton, List.range'_1_concat, Nat.add_comm 1]
    rfl
  cases h with
  | «open» => exact ⟨hpush _, fun h => by cases h⟩
  | revise _ _ hauthor => exact ⟨hpush _, fun h => by cases hauthor.symm.trans h⟩
  | approve _ hcurrent =>
      have hsplit := revisions_of_current hcurrent
      have hmap : (r.approveLast actor).revisions.map Revision.index = r.revisions.map Revision.index := by
        rw [revisions_approveLast hcurrent]
        conv_rhs => rw [hsplit]
        simp
      have hlen : (r.approveLast actor).revisions.length = r.revisions.length := by
        rw [← List.length_map Revision.index, hmap, List.length_map]
      refine ⟨hmap.trans (hlen ▸ hr.numbered), fun h => ?_⟩
      rw [author_approveLast] at h
      rw [hr.begun h] at hsplit
      simp at hsplit
  | comment => exact ⟨hr.numbered, hr.begun⟩
  | publish => exact ⟨hr.numbered, hr.begun⟩
  | close => exact ⟨hr.numbered, hr.begun⟩

end Collaboration.Review

namespace Reviewing

open FileWorldLog Review

variable {n n' : FileWorldLog Id} {id : RequestId} {repository : RepositoryId}

omit [Encoding Id] in
theorem restore_regular {review : Review Id} (h : restore n repository id = .ok review) :
    review.Regular ∧ review.request = id := by
  refine restore_invariant (I := fun review => review.Regular ∧ review.request = id) h
    ⟨⟨rfl, fun _ => rfl⟩, rfl⟩ ?_
  intro review row next _ _ hreview hreplay
  obtain ⟨acted, hacted, rfl⟩ := acted_of_replay (of_replayRow hreplay).2
  have hnext := hacted.regular hreview.1
  exact ⟨⟨hnext.numbered, hnext.begun⟩, hacted.keeps.2.2.trans hreview.2⟩

omit [Encoding Id] in
/-- One more row. -/
theorem restore_concat {row : ReviewRow Id} (hrows : n'.rows = n.rows ++ [row]) :
    restore n' repository id = if row.request = id then
      (restore n repository id).bind (fun review => replayRow review row) else restore n repository id := by
  unfold restore
  rw [hrows, List.filter_append, List.foldlM_append]
  by_cases hid : row.request = id
  · rw [if_pos hid, List.filter_singleton, decide_eq_true hid]
    cases List.foldlM replayRow (Review.new repository id) (n.rows.filter (fun row => decide (row.request = id))) with
    | error e => rfl
    | ok review =>
        show (replayRow review row >>= fun review => pure review) = replayRow review row
        exact bind_pure _
  · rw [if_neg hid, List.filter_singleton, decide_eq_false hid]
    cases List.foldlM replayRow (Review.new repository id) (n.rows.filter (fun row => decide (row.request = id))) <;> rfl

omit [Encoding Id] in
/-- A request is restored alike in every repository. -/
theorem restore_inRepository {review : Review Id} (h : restore n repository id = .ok review)
    (repository' : RepositoryId) : restore n repository' id = .ok (review.inRepository repository') := by
  unfold restore at h ⊢
  have hnew : (Review.new repository' id : Review Id) = (Review.new repository id).inRepository repository' := rfl
  rw [hnew]
  generalize (Review.new repository id : Review Id) = start at h
  generalize n.rows.filter (fun row => decide (row.request = id)) = rows at h
  induction rows generalizing start with
  | nil =>
      obtain rfl := Except.ok.inj h
      rfl
  | cons row rows ih =>
      rw [List.foldlM_cons] at h ⊢
      obtain ⟨next, hreplay, hrest⟩ := except_bind_eq_ok.mp h
      have hnext : replayRow (start.inRepository repository') row = .ok (next.inRepository repository') := by
        obtain ⟨hepoch, hreplay⟩ := of_replayRow hreplay
        obtain ⟨acted, hact, hpure⟩ := except_bind_eq_ok.mp hreplay
        obtain rfl := Except.ok.inj hpure
        have hreplay' : (start.inRepository repository').replay row.command row.epoch =
            .ok ((acted.stamp row.command row.epoch).inRepository repository') := by
          unfold replay transition
          rw [act_inRepository, hact]
          rfl
        unfold replayRow
        rw [if_neg (not_le.mpr hepoch), hreplay']
        rfl
      rw [except_bind_of_ok hnext]
      exact ih next hrest

/-! ### Layers of revisions -/

omit [LinearOrder Id] in
theorem revisionLayer_injective [IdBytes Id] {id id' : RequestId} {index index' : ℕ}
    (h : revisionLayer Id id index = revisionLayer Id id' index') : id = id' ∧ index = index' := by
  have htext : REVIEW_LAYER_PREFIX ++ idText (objectId (.blob (id.text ++ slash :: decimal index) : Object Id)) =
      REVIEW_LAYER_PREFIX ++ idText (objectId (.blob (id'.text ++ slash :: decimal index') : Object Id)) :=
    congrArg LayerId.text h
  have hblob := ObjectHash.objectId_injective (idText_injective (List.append_cancel_left htext))
  obtain ⟨hid, hindex⟩ := append_slash_inj id.slash_not_mem id'.slash_not_mem (Object.blob.inj hblob)
  refine ⟨?_, ?_⟩
  · cases id
    cases id'
    cases hid
    rfl
  · rw [← ofDecimal_decimal index, hindex, ofDecimal_decimal]

end Reviewing

/-! ### Published revisions -/

namespace Repository
variable {r r' : Repository Id} {S : VersionNumber → Manifest Id} {op : OperationId}
  {receipt : PublicationReceipt Id} {version : WorldVersion Id}

/-- A successful receipt is the state of its Layer. -/
theorem state_of_publication (hs : Sound r S) (h : r.publication op = .ok (some receipt))
    (houtcome : receipt.outcome = .published version) :
    r.layerStateIn receipt.expected.layer = .ok (.published receipt.expected op version) ∧
      ∃ row, r.publications.get? op = some row ∧ row.outcome = .published ∧ row.layer = receipt.expected.layer := by
  obtain ⟨row, hrow, hreceipt⟩ := publication_eq_ok.mp h
  obtain ⟨⟨_, htag⟩, _⟩ := of_publication hs.chain hrow h
  rw [houtcome] at htag
  obtain ⟨expected, against, _, _, observed, outcome, hexpected, _, _, _, _, _, _, _, hout, _, rfl⟩ :=
    (receiptIn_eq_ok hs.chain).mp hreceipt
  obtain ⟨head, version', hsucceeded, hstate⟩ := hs.layerStateIn_of_success hrow htag.symm
  obtain rfl := Except.ok.inj (hexpected.symm.trans hsucceeded.expected)
  obtain ⟨_, _, _, hlayer⟩ := layerHeadIn_eq_ok.mp hexpected
  have hlayer : row.layer = expected.layer := by rw [hlayer]
  obtain rfl : outcome = .published version := houtcome
  unfold outcomeIn at hout
  rw [← htag] at hout
  obtain ⟨result, version'', _, hresult, _, _, _, hstored, _, _, hsame⟩ := (publishedOutcome_eq_ok hs.chain).mp hout
  obtain rfl := PublishOutcome.published.inj hsame
  obtain rfl := Option.some.inj (hresult.symm.trans hsucceeded.result)
  obtain rfl := Option.some.inj (hstored.symm.trans hsucceeded.stored)
  exact ⟨hlayer ▸ hstate, row, hrow, htag.symm, hlayer⟩

/-- The new version is the head, overwritten by the changes of a checkpoint. -/
def Overwrites (r r' : Repository Id) (checkpoint : Id) (version : WorldVersion Id) : Prop :=
  ∃ head stored before after, r.versions.getLast? = some head ∧ r'.versions = r.versions ++ [version] ∧
    version.number = head.number + 1 ∧ r'.checkpointIn checkpoint = .ok stored ∧
    r'.manifestAt head.number = .ok before ∧ r'.manifestAt version.number = .ok after ∧
    after.entries = stored.changes.apply before.entries ∧
    r'.changes.get? version.number = some stored.changes.entries

theorem Publishes.overwrites {call : PublishCall Id} (h : Publishes r call receipt r') (hn : r.Hosted)
    (houtcome : receipt.outcome = .published version) : Overwrites r r' call.expected.checkpoint version := by
  obtain ⟨S, hs⟩ := hn.sound
  obtain ⟨S', hs'⟩ := (hn.publishes h).sound
  have hl := h.later hn
  obtain ⟨plan, outcome, hfits, hcommitted, rfl⟩ := h.committed hs
  obtain rfl : outcome = .published version := houtcome
  obtain ⟨hhead, _, composition, stored, _, hread, _, _, hversions, hchanges⟩ := hcommitted.composed hfits hs.chain
  have hf := (checkpointIn_eq_ok hs.chain).mp hread
  obtain ⟨hlast, hnumber, hflat⟩ := hcommitted.snapshot hfits hs.chain hs'.chain hf
  obtain ⟨hworld, _⟩ := hs.chain.getElem?_of_head hfits.head
  refine ⟨plan.against, stored, _, _, hhead, hversions, hnumber, hl.checkpointIn hs.chain hs'.chain _ _ hread,
    hl.manifestAt hs.chain hs'.chain _ _ (hs.chain.manifestAt_eq hworld),
    hs'.chain.manifestAt_eq (hs'.chain.getElem?_of_head hlast).1, SortedMap.ext fun p => ?_, hchanges⟩
  have happly := congrFun (stored.changes.mapFlat_apply (S plan.against.number).entries) p.names
  exact (congrFun hflat p.names).trans happly.symm

end Repository

namespace FileWorldLog

open Reviewing

variable [IdBytes Id] {P : FileWorldLog Id → Input Id → Prop} {n n' : FileWorldLog Id} {id : RequestId} {index : ℕ}
  {op : OperationId} {receipt : PublicationReceipt Id} {version : WorldVersion Id}

/-- The World's version of a revision of a request, by its operation and receipt. -/
structure PublishedAs (r : Repository Id) (id : RequestId) (index : ℕ) (op : OperationId)
    (receipt : PublicationReceipt Id) (version : WorldVersion Id) : Prop where
  stored : r.publication op = .ok (some receipt)
  layer : receipt.expected.layer = revisionLayer Id id index
  outcome : receipt.outcome = .published version

theorem PublishedAs.later {r r' : Repository Id} (h : PublishedAs r id index op receipt version) (hl : Later r r')
    (hr : r.Hosted) (hr' : r'.Hosted) : PublishedAs r' id index op receipt version := by
  obtain ⟨S, hs⟩ := hr.sound
  obtain ⟨S', hs'⟩ := hr'.sound
  exact ⟨hl.publication hs.chain hs'.chain h.stored, h.layer, h.outcome⟩

theorem PublishedAs.quiet {r r' : Repository Id} (h : PublishedAs r' id index op receipt version) (hq : Quiet r r')
    (hr : r.Hosted) : PublishedAs r id index op receipt version :=
  ⟨(hq.later hr).publication_of hr (hr.quiet hq) (congrArg (·.get? op) hq.publications) h.stored, h.layer, h.outcome⟩

theorem PublishedAs.state {r : Repository Id} (h : PublishedAs r id index op receipt version) (hr : r.Hosted) :
    r.layerStateIn (revisionLayer Id id index) = .ok (.published receipt.expected op version) := by
  obtain ⟨S, hs⟩ := hr.sound
  exact h.layer ▸ (state_of_publication hs h.stored h.outcome).1

/-- A revision is published under one operation. -/
theorem PublishedAs.operation_eq {r : Repository Id} {op' : OperationId} {receipt' : PublicationReceipt Id}
    {version' : WorldVersion Id} (h : PublishedAs r id index op receipt version)
    (h' : PublishedAs r id index op' receipt' version') (hr : r.Hosted) :
    op = op' ∧ receipt = receipt' ∧ version = version' := by
  obtain ⟨S, hs⟩ := hr.sound
  obtain ⟨_, row, hrow, htag, hlayer⟩ := state_of_publication hs h.stored h.outcome
  obtain ⟨_, row', hrow', htag', hlayer'⟩ := state_of_publication hs h'.stored h'.outcome
  obtain rfl := hs.once op op' row row' hrow hrow' (by rw [hlayer, hlayer', h.layer, h'.layer]) htag htag'
  obtain rfl := Option.some.inj (Except.ok.inj (h.stored.symm.trans h'.stored))
  exact ⟨rfl, rfl, PublishOutcome.published.inj (h.outcome.symm.trans h'.outcome)⟩

/-- An open request whose current revision is published is read as published. -/
theorem settled_of_published {r : Repository Id} {review : Review Id} {current : Revision Id}
    (h : PublishedAs r review.request current.index op receipt version) (hr : r.Hosted)
    (hcurrent : review.current = some current) (hcheckpoint : current.revision.checkpoint = receipt.expected.checkpoint) :
    ∃ next, settled review r = .ok next ∧ next.state ≠ .open ∧ next.author = review.author := by
  unfold settled
  cases hstate : review.state with
  | «open» =>
      refine ⟨review.publishedByWorld, ?_, by simp [Review.publishedByWorld], rfl⟩
      simp only [hcurrent]
      have hfound : worldPublication review.request current.index current.revision.checkpoint r =
          .ok (some (op, .published version.number version.id version.tree)) := by
        unfold worldPublication
        rw [h.state hr]
        simp only [hcheckpoint, if_true]
      rw [except_bind_of_ok hfound]
      rfl
  | published =>
      refine ⟨review, ?_, by rw [hstate]; simp, rfl⟩
      rfl
  | closed =>
      refine ⟨review, ?_, by rw [hstate]; simp, rfl⟩
      rfl

omit [LinearOrder Id] [Encoding Id] [IdBytes Id] in
/-- A request that has ended, and has an author, accepts no new action. -/
theorem not_acted_of_ended {review next : Review Id} {actor : PrincipalId} {action : Action Id}
    (hauthor : review.author ≠ none) (hended : review.state ≠ .open) : ¬ Review.Acted review actor action next := by
  intro h
  cases h with
  | «open» hnone => exact hauthor hnone
  | revise hopen => exact hended hopen
  | approve hopen => exact hended hopen
  | comment hopen => exact hended hopen
  | publish hopen => exact hended hopen
  | close hopen => exact hended hopen

/-! ### Revisions that the World has -/

/-- A publication in the World is old, or one write brought it: that of a Publish that its request accepts. -/
theorem Write.publishedAs (h : Write P n n') (hn : n.repo.Hosted)
    (hp : PublishedAs n'.repo id index op receipt version) : PublishedAs n.repo id index op receipt version ∨
      n'.rows = n.rows ∧ n'.requests = n.requests ∧ n.repo.publications.get? op = none ∧
        ∃ permissions actor revision review,
          Approved n permissions id ⟨op, actor, .publish index revision⟩ index revision review ∧
            receipt.expected.checkpoint = revision.checkpoint := by
  have hl := h.later hn
  have hn' := h.hosted hn
  have hsame : n'.repo.publications.get? op = n.repo.publications.get? op →
      PublishedAs n.repo id index op receipt version :=
    fun hsame => ⟨hl.publication_of hn hn' hsame hp.stored, hp.layer, hp.outcome⟩
  cases h with
  | changes | policy | traces | result | decided | published | opened | reviewed => exact .inl hp
  | quiet hq => exact .inl (hsame (congrArg (·.get? op) hq.publications))
  | advance _ hok => exact .inl (hsame (congrArg (·.get? op) (publications_of_advanceToTree hn hok)))
  | @publishLayer n₀ _ request head receipt' r _ hready hpublishes =>
      by_cases hop : op = request.operation
      · subst hop
        obtain rfl := Option.some.inj (Except.ok.inj ((hpublishes.publication hn).symm.trans hp.stored))
        obtain ⟨_, hexpected, _⟩ := hpublishes.named hn
        have hlayer : request.layer = revisionLayer Id id index := by
          rw [← hp.layer, hexpected]
          exact (layer_of_active hready.active).symm
        exact absurd hlayer (layer_ne_revisionLayer hready.unreserved)
      · exact .inl (hsame (hpublishes.other hn hop))
  | @publishRequest n₀ _ caller op' id' index' base actor permissions revision review head receipt' r _ _ _
      happroved _ hlayer hcheckpoint hpublishes =>
      by_cases hop : op = op'
      · subst hop
        obtain rfl := Option.some.inj (Except.ok.inj ((hpublishes.publication hn).symm.trans hp.stored))
        obtain ⟨_, hexpected, _⟩ := hpublishes.named hn
        have hrevision : revisionLayer Id id index = revisionLayer Id id' index' := by
          rw [← hp.layer, hexpected]
          exact hlayer
        obtain ⟨rfl, rfl⟩ := revisionLayer_injective hrevision
        refine .inr ⟨rfl, rfl, hpublishes.fresh, permissions, actor, revision, review, happroved, ?_⟩
        rw [hexpected]
        exact hcheckpoint
      · exact .inl (hsame (hpublishes.other hn hop))

/-- What holds of the rows of a node, whatever was sent: a request that the World published a revision of stays at
this revision. -/
structure Standing (n : FileWorldLog Id) : Prop where
  known : ∀ row ∈ n.rows, n.requests.get? row.request ≠ none
  distinct : (n.rows.map (fun row => row.command.operation)).Nodup
  current : ∀ {id index op receipt version}, PublishedAs n.repo id index op receipt version →
    n.requests.get? id ≠ none ∧ ∀ repository review, restore n repository id = .ok review →
      ∃ current, review.current = some current ∧ current.index = index ∧
        current.revision.checkpoint = receipt.expected.checkpoint
  once : ∀ {id index index' op op' receipt receipt' version version'},
    PublishedAs n.repo id index op receipt version → PublishedAs n.repo id index' op' receipt' version' → index = index'

/-- A command of a request that the World published is no Open, Revise, Approve or Comment. -/
theorem Standing.not_reviewed {permissions : AppliedPermissions} {command : Command Id} {stored review : Review Id}
    {applied : Applied Id} (hs : Standing n)
    (hp : PublishedAs n.repo id index op receipt version) :
    ¬ Reviewed n permissions id command stored review applied := by
  intro h
  obtain ⟨_, hcurrent⟩ := hs.current hp
  obtain ⟨current, hlast, rfl, hcheckpoint⟩ := hcurrent _ _ h.restored
  obtain ⟨hregular, rfl⟩ := restore_regular h.restored
  obtain ⟨r, hr, hq, hsettled⟩ := h.current
  obtain ⟨next, hnext, hended, hauthor⟩ := settled_of_published (hp.quiet hq hr) hr hlast hcheckpoint
  obtain rfl := Except.ok.inj (hnext.symm.trans hsettled)
  have hfresh : ∀ c ∈ next.history, c.operation ≠ command.operation := by
    have hhistory : next.history = stored.history := by
      unfold settled at hnext
      split at hnext
      · obtain ⟨found, _, hfound⟩ := except_bind_eq_ok.mp hnext
        split at hfound <;> (obtain rfl := Except.ok.inj hfound; rfl)
      · obtain rfl := Except.ok.inj hnext
        rfl
    rw [hhistory]
    exact fresh_of_recorded h.restored h.fresh
  cases Review.of_apply h.accepted with
  | inl hreplayed => exact absurd rfl (hfresh command hreplayed.2)
  | inr haccepted =>
      obtain ⟨_, _, acted, hact, _⟩ := haccepted
      refine not_acted_of_ended ?_ hended (Review.of_act hact)
      rw [hauthor]
      intro hnone
      have hempty := hregular.begun hnone
      unfold Review.current at hlast
      rw [hempty] at hlast
      cases hlast

omit [Encoding Id] [IdBytes Id] in
/-- The restored request after one more row. -/
theorem of_restore_concat {row : ReviewRow Id} {repository : RepositoryId} {review : Review Id}
    (hrows : n'.rows = n.rows ++ [row]) (h : restore n' repository id = .ok review) :
    restore n repository id = .ok review ∧ row.request ≠ id ∨ row.request = id ∧ ∃ stored acted,
      restore n repository id = .ok stored ∧ Review.Acted stored row.command.actor row.command.action acted ∧
        review = acted.stamp row.command row.epoch := by
  rw [restore_concat hrows] at h
  split at h
  · rename_i hid
    obtain ⟨stored, hstored, hreplay⟩ := except_bind_eq_ok.mp h
    obtain ⟨acted, hacted, rfl⟩ := acted_of_replay (of_replayRow hreplay).2
    exact .inr ⟨hid, stored, acted, hstored, hacted, rfl⟩
  · rename_i hid
    exact .inl ⟨h, hid⟩

theorem Write.standing (h : Write P n n') (hn : n.repo.Hosted) (hs : Standing n) : Standing n' := by
  -- a publication that this write brings is of the current revision
  have hcurrent : n'.rows = n.rows → n'.requests = n.requests → Standing n' := by
    intro hrows hrequests
    refine ⟨by rw [hrows, hrequests]; exact hs.known, by rw [hrows]; exact hs.distinct, ?_, ?_⟩
    case refine_2 =>
      -- what is accepted now is the one revision that is published
      have hone : ∀ {id index index' op op' receipt version permissions actor revision review},
          Approved n permissions id ⟨op, actor, .publish index revision⟩ index revision review →
          PublishedAs n'.repo id index' op' receipt version → index' = index := by
        intro id index index' op op' receipt version permissions actor revision review happroved hp
        obtain ⟨_, current, hlast, rfl, _⟩ := happroved.current
        obtain hold | ⟨_, _, _, permissions', _, _, review', happroved', _⟩ := h.publishedAs hn hp
        · obtain ⟨current', hlast', rfl, _⟩ := (hs.current hold).2 _ _ happroved.restored
          exact congrArg Revision.index (Option.some.inj (hlast'.symm.trans hlast))
        · obtain ⟨_, current', hlast', rfl, _⟩ := happroved'.current
          have hsame := restore_inRepository happroved.restored permissions'.repository
          rw [happroved'.restored] at hsame
          obtain rfl := Except.ok.inj hsame
          exact congrArg Revision.index (Option.some.inj (hlast'.symm.trans hlast))
      intro id index index' op op' receipt receipt' version version' hp hp'
      obtain hold | ⟨_, _, _, _, _, _, _, happroved, _⟩ := h.publishedAs hn hp
      · obtain hold' | ⟨_, _, _, _, _, _, _, happroved, _⟩ := h.publishedAs hn hp'
        · exact hs.once hold hold'
        · exact hone happroved hp
      · exact (hone happroved hp').symm
    intro id index op receipt version hp
    rw [hrequests]
    obtain hold | ⟨_, _, _, permissions, actor, revision, review, happroved, hcheckpoint⟩ := h.publishedAs hn hp
    · obtain ⟨hknown, hold⟩ := hs.current hold
      exact ⟨hknown, fun repository review hrestore => hold repository review ((restore_congr hrows).symm.trans hrestore)⟩
    refine ⟨happroved.known, fun repository stored hrestore => ?_⟩
    have hsame := restore_inRepository happroved.restored repository
    rw [← restore_congr hrows, hrestore] at hsame
    obtain rfl := Except.ok.inj hsame
    obtain ⟨_, current, hlast, rfl, rfl⟩ := happroved.current
    exact ⟨current, hlast, rfl, hcheckpoint.symm⟩
  -- a row of a published request is that of its Publish
  have hrow : ∀ row : ReviewRow Id, n'.rows = n.rows ++ [row] → n'.repo = n.repo →
      recorded n row.command.operation = none → n'.requests.get? row.request ≠ none →
      (∀ id, n.requests.get? id ≠ none → n'.requests.get? id ≠ none) →
      (∀ {index op receipt version}, PublishedAs n.repo row.request index op receipt version →
        ∃ index' revision, row.command.action = .publish index' revision) → Standing n' := by
    intro row hrows hrepo hfresh hknown hrequests hpublish
    refine ⟨?_, ?_, ?_, by rw [hrepo]; exact hs.once⟩
    · intro row' hm
      rw [hrows] at hm
      cases List.mem_append.mp hm with
      | inl hold => exact hrequests _ (hs.known row' hold)
      | inr hnew => exact List.mem_singleton.mp hnew ▸ hknown
    · rw [hrows, List.map_append, List.nodup_append]
      refine ⟨hs.distinct, List.nodup_singleton _, ?_⟩
      rintro op hm op' hm' rfl
      obtain ⟨row', hrow', rfl⟩ := List.mem_map.mp hm
      have hop := List.find?_eq_none.mp hfresh row' hrow'
      exact hop (decide_eq_true (List.mem_singleton.mp hm'))
    · intro id index op receipt version hp
      rw [hrepo] at hp
      obtain ⟨hold, hcurrent⟩ := hs.current hp
      refine ⟨hrequests id hold, fun repository review hrestore => ?_⟩
      obtain ⟨hstored, _⟩ | ⟨rfl, stored, acted, hstored, hacted, rfl⟩ := of_restore_concat hrows hrestore
      · exact hcurrent repository review hstored
      obtain ⟨index', revision, haction⟩ := hpublish hp
      rw [haction] at hacted
      cases hacted
      exact hcurrent repository stored hstored
  cases h with
  | quiet | advance | changes | policy | traces | result | publishLayer | decided | publishRequest =>
      exact hcurrent rfl rfl
  | published _ _ happroved =>
      exact hrow _ rfl rfl happroved.fresh happroved.known (fun _ h => h) (fun _ => ⟨_, _, rfl⟩)
  | opened _ _ _ hreviewed hnew =>
      refine hrow _ rfl rfl hreviewed.fresh ?_ (fun id hknown => ?_) (fun hp => absurd hreviewed (hs.not_reviewed hp))
      · show (n.requests.insert _ _).get? _ ≠ none
        rw [SortedMap.get?_insert, if_pos rfl]
        simp
      · show (n.requests.insert _ _).get? id ≠ none
        rw [SortedMap.get?_insert]
        split
        · simp
        · exact hknown
  | reviewed _ _ _ _ _ hreviewed hknown =>
      exact hrow _ rfl rfl hreviewed.fresh hknown (fun _ h => h) (fun hp => absurd hreviewed (hs.not_reviewed hp))

theorem Reachable.standing (h : Reachable P n) : Standing n := by
  have hnone : ∀ (identity : Id) {id index op receipt version},
      ¬ PublishedAs (initial identity).repo id index op receipt version := by
    intro identity id index op receipt version hp
    have hfresh : (initial identity : FileWorldLog Id).repo.publications.get? op = none := rfl
    cases (publication_eq_none.mpr hfresh).symm.trans hp.stored
  exact h.invariant (fun identity => ⟨fun _ hm => (by cases hm), List.nodup_nil,
    fun hp => absurd hp (hnone identity), fun hp => absurd hp (hnone identity)⟩)
    (fun _ _ hn hs hwrite => hwrite.standing hn hs)

/-! ### What a Publish leaves -/

section publish
variable {caller : Caller} {base : VersionNumber} {permissions : AppliedPermissions} {actor : PrincipalId}
  {revision : RevisionRef Id} {review : Review Id}

/-- The row of a recorded Publish. -/
def publishRow (id : RequestId) (epoch : ℕ) (op : OperationId) (actor : PrincipalId) (index : ℕ)
    (revision : RevisionRef Id) (version : WorldVersion Id) : ReviewRow Id :=
  ⟨id, epoch, ⟨op, actor, .publish index revision⟩, .publishOutcome (PublishOutcome.published version).toWire⟩

omit [LinearOrder Id] [Encoding Id] [IdBytes Id] in
theorem exists_published_of_toWire {outcome : PublishOutcome Id} {number : VersionNumber} {version tree : Id}
    (h : outcome.toWire = .published number version tree) : ∃ stored, outcome = .published stored := by
  cases outcome with
  | published stored => exact ⟨stored, rfl⟩
  | conflict paths => cases h
  | layerStale state => cases state <;> cases h

/-- An accepted Publish leaves what publishing the revision leaves, and maybe its row. -/
theorem leaves_publishAccepted (hn : n.repo.Hosted)
    (h : (publishAccepted permissions id ⟨op, actor, .publish index revision⟩ index revision).Leaves n n') :
    ∃ n₁, Publishing n op id index revision n₁ ∧ (n' = n₁ ∨ ∃ receipt version,
      PublishedAs n₁.repo id index op receipt version ∧ receipt.expected.checkpoint = revision.checkpoint ∧
      n' = { n₁ with rows := n₁.rows ++ [publishRow id permissions.epoch op actor index revision version] }) := by
  unfold publishAccepted at h
  cases Durable.leaves_bind.mp h with
  | inl hgate => exact ⟨n, .idle (.refl n), .inl (leaves_publishGate hgate)⟩
  | inr hrest =>
  obtain ⟨refusal, n₁, hgate, hrest⟩ := hrest
  obtain rfl := leaves_publishGate hgate.leaves
  cases refusal with
  | some code => exact ⟨n₁, .idle (.refl n₁), .inl (Durable.leaves_pure.mp hrest)⟩
  | none =>
  cases Durable.leaves_bind.mp hrest with
  | inl hpublish => exact ⟨n', leaves_publishCheckpoint hpublish, .inl rfl⟩
  | inr hanswered =>
  obtain ⟨outcome, n₂, hpublish, hanswered⟩ := hanswered
  refine ⟨n₂, leaves_publishCheckpoint hpublish.leaves, ?_⟩
  cases outcome with
  | conflict paths => exact .inl (Durable.leaves_pure.mp hanswered)
  | layerStale head => exact .inl (Durable.leaves_pure.mp hanswered)
  | refused code => exact .inl (Durable.leaves_pure.mp hanswered)
  | published number version tree =>
      obtain ⟨_, hcode⟩ | ⟨receipt, hreceipt, hlayer, hcheckpoint, houtcome⟩ :=
        outcome_of_publishCheckpoint hn hpublish
      · cases hcode
      obtain ⟨stored, hstored⟩ := exists_published_of_toWire houtcome.symm
      have hwire : (.published number version tree : Codec.PublishOutcome Id) =
          (PublishOutcome.published stored).toWire := houtcome.trans (by rw [hstored])
      have hpersist : ∀ {n₃}, (persist id ⟨op, actor, .publish index revision⟩ permissions.epoch
          (.publishOutcome (.published number version tree)) none).Leaves n₂ n₃ → n₃ = n₂ ∨
          n₃ = { n₂ with rows := n₂.rows ++ [publishRow id permissions.epoch op actor index revision stored] } := by
        intro n₃ hleaves
        obtain hsame | ⟨_, hrow⟩ | ⟨_, hnone, _⟩ := leaves_persist hleaves
        · exact .inl hsame
        · exact .inr (by rw [hrow, hwire]; rfl)
        · cases hnone
      have hdone : n' = n₂ ∨
          n' = { n₂ with rows := n₂.rows ++ [publishRow id permissions.epoch op actor index revision stored] } := by
        cases Durable.leaves_bind.mp hanswered with
        | inl hleaves => exact hpersist hleaves
        | inr hdone =>
            obtain ⟨_, n₃, hleaves, hpure⟩ := hdone
            exact Durable.leaves_pure.mp hpure ▸ hpersist hleaves.leaves
      exact hdone.imp_right (fun hrow => ⟨receipt, stored, ⟨hreceipt, hlayer, hstored⟩, hcheckpoint, hrow⟩)

/-- Publishing a revision writes to the repository only. -/
theorem Publishing.tables {n₁ : FileWorldLog Id} (h : Publishing n op id index revision n₁) :
    n₁.rows = n.rows ∧ n₁.requests = n.requests := by
  cases h with
  | idle hsince => exact ⟨Since.rows hsince, Since.requests hsince⟩
  | published hsince =>
      obtain ⟨r, _, rfl⟩ := hsince
      exact ⟨rfl, rfl⟩

end publish

/-! ### Closed requests -/

theorem Standing.since (hs : Standing n) (hn : n.repo.Hosted) (h : Since n n') : Standing n' := by
  obtain ⟨r, hq, rfl⟩ := h
  exact Write.standing (P := anyInput) (.quiet hq) hn hs

theorem PublishedAs.since (hp : PublishedAs n.repo id index op receipt version) (hn : n.repo.Hosted)
    (h : Since n n') : PublishedAs n'.repo id index op receipt version :=
  hp.later (h.quiet.later hn) hn (hn.quiet h.quiet)

/-- A command that answers was refused, replayed, or accepted. -/
theorem answers_command {caller : Caller} {scope : Scope} {op : OperationId}
    {action : Review Id → NodeM Id (Except String (Action Id))} {reply : Reply Id}
    (h : (command caller scope op id action).Answers n reply n') (hn : n.repo.Hosted)
    (haction : ∀ review, Prepares n (action review)) : (∃ code, reply = .refused code) ∨
      (∃ row ∈ n.rows, row.request = id ∧ row.command.operation = op ∧ reply = row.reply) ∨
      ∃ n₁ permissions command stored review applied, Since n n₁ ∧
        Reviewed n₁ permissions id command stored review applied := by
  unfold command at h
  obtain ⟨⟨grant, permissions, stored⟩, n₁, htarget, hrest⟩ := Durable.answers_bind.mp h
  obtain ⟨rfl, _, _, hrestore⟩ := answers_target.mp htarget
  simp only [answers_native_bind, answers_encoded_bind] at hrest
  obtain ⟨review, hsettled, actor, _, hrest⟩ := hrest
  obtain ⟨answer, n₂, hact, hacted⟩ := Durable.answers_bind.mp hrest
  have hsince := (haction review).leaves _ hact.leaves
  cases answer with
  | error code => exact .inl ⟨code, (Durable.answers_pure.mp hacted).1⟩
  | ok a =>
  obtain ⟨decision, n₃, hdecide, hsettle⟩ := Durable.answers_bind.mp hacted
  obtain rfl := leaves_decideCommand hdecide.leaves
  obtain ⟨code, rfl⟩ | ⟨row, hrow, hid, hcommand, rfl⟩ | ⟨next, rfl⟩ := decided_of_decideCommand hdecide
  · exact .inl ⟨code, (Durable.answers_pure.mp hsettle).1⟩
  · exact .inr (.inl ⟨row, Since.rows hsince ▸ hrow, hid, by rw [hcommand], (Durable.answers_pure.mp hsettle).1⟩)
  · obtain ⟨_, hfresh, applied, happly, _⟩ := answers_decideCommand.mp hdecide
    exact .inr (.inr ⟨n₃, permissions, _, stored, review, applied, hsince, hfresh,
      (restore_congr (Since.rows hsince)).trans hrestore, ⟨_, hn, hsince.quiet, hsettled⟩, happly,
      (haction review).ordinary _ a hact, fun revision => (haction review).tree _ a revision hact⟩)

/-- No Revise, Approve or Comment of a published request is accepted. -/
theorem Standing.closed {caller : Caller} {message : ReviewMessage Id} (hs : Standing n) (hn : n.repo.Hosted)
    (hp : PublishedAs n.repo id index op receipt version) (hjudges : message.Judges id) :
    (∀ n', (handle caller message).Leaves n n' → n'.rows = n.rows) ∧
      ∀ reply n', (handle caller message).Answers n reply n' → (∃ code, reply = .refused code) ∨
        ∃ row ∈ n.rows, row.request = id ∧ message.operation = some row.command.operation ∧ reply = row.reply := by
  obtain ⟨scope, op', action, hhandle, hop, _, hprepares⟩ := exists_command caller hn hjudges
  rw [hhandle]
  have hnone : ∀ {n₁ permissions command stored review applied}, Since n n₁ →
      ¬ Reviewed n₁ permissions id command stored review applied :=
    fun hsince => (hs.since hn hsince).not_reviewed (hp.since hn hsince)
  constructor
  · intro n' hleaves
    obtain hsince | ⟨n₁, permissions, actor, a, stored, review, applied, reply, hsince, _, hreviewed, _⟩ :=
      leaves_command hleaves hn hprepares
    · exact Since.rows hsince
    · exact absurd hreviewed (hnone hsince)
  · intro reply n' hanswers
    obtain hrefused | ⟨row, hrow, hid, rfl, hreply⟩ | ⟨n₁, permissions, command, stored, review, applied, hsince,
      hreviewed⟩ := answers_command hanswers hn hprepares
    · exact .inl hrefused
    · exact .inr ⟨row, hrow, hid, hop, hreply⟩
    · exact absurd hreviewed (hnone hsince)

/-! ### What a Publish brings -/

section publish
variable {caller : Caller} {base : VersionNumber} {permissions : AppliedPermissions} {actor : PrincipalId}
  {revision : RevisionRef Id} {review : Review Id}

omit [Encoding Id] [IdBytes Id] in
/-- An accepted Publish is of the current revision, which has its approvals. -/
theorem Accepted.publishable (h : Accepted n caller op id index base permissions actor revision review) :
    review.state = .open ∧ ∃ current p, review.current = some current ∧ current.index = index ∧
      current.revision = revision ∧ review.checkPublishable index revision permissions actor = .ok p := by
  obtain ⟨hopen, current, hlast, hindex, hrevision⟩ := h.approved.current
  obtain ⟨applied, happly⟩ := h.approved.accepted
  refine ⟨hopen, current, ?_⟩
  cases Review.of_apply happly with
  | inl hreplayed =>
      exact absurd rfl (fresh_of_recorded h.approved.restored h.approved.fresh _ hreplayed.2)
  | inr haccepted =>
      obtain ⟨p, hp⟩ := Review.publishable_of_check haccepted.2.1 rfl
      exact ⟨p, hlast, hindex.symm, hrevision.symm, hp⟩

/-- A Publish that brings a version brings its revision's. -/
theorem publishes_of_publishRequest (hn : n.repo.Hosted)
    (h : (publishRequest caller op id index base).Leaves n n') : n'.repo.versions = n.repo.versions ∨
      ∃ permissions actor revision review receipt version,
        Accepted n caller op id index base permissions actor revision review ∧
        n.repo.publications.get? op = none ∧ PublishedAs n'.repo id index op receipt version ∧
        receipt.expected.checkpoint = revision.checkpoint ∧
        Overwrites n.repo n'.repo revision.checkpoint version := by
  obtain rfl | ⟨permissions, actor, revision, review, haccepted, hleaves⟩ := leaves_publishRequest h
  · exact .inl rfl
  obtain ⟨n₁, hpublishing, hrow⟩ := leaves_publishAccepted hn hleaves
  have hrepo : n'.repo = n₁.repo := by
    obtain rfl | ⟨_, _, _, _, rfl⟩ := hrow
    · rfl
    · rfl
  rw [hrepo]
  cases hpublishing with
  | idle hsince => exact .inl hsince.quiet.versions
  | @published n₂ head receipt r hsince hfresh hlayer hcheckpoint hp =>
      have hn₂ := hn.quiet hsince.quiet
      obtain ⟨version, houtcome, _⟩ | ⟨_, hversions⟩ := hp.versions hn₂
      · obtain ⟨_, hexpected, _⟩ := hp.named hn₂
        have hoverwrites := hp.overwrites hn₂ houtcome
        refine .inr ⟨permissions, actor, revision, review, receipt, version, haccepted, publication_eq_none.mp hfresh,
          ⟨hp.publication hn₂, by rw [hexpected]; exact hlayer, houtcome⟩, by rw [hexpected]; exact hcheckpoint, ?_⟩
        rw [← hcheckpoint]
        obtain ⟨world, stored, before, after, hhead, hrest⟩ := hoverwrites
        rw [hsince.quiet.versions] at hhead hrest
        exact ⟨world, stored, before, after, hhead, hrest⟩
      · exact .inl (hversions.trans hsince.quiet.versions)

end publish

/-! ### Retries -/

/-- While the record of a published operation is missing, no other command comes under the operation: no other
message, and no Publish of another actor, or under an epoch that cannot be read back, is accepted. -/
def Unclaimed (op : OperationId) (actor : PrincipalId) (n : FileWorldLog Id) (input : Input Id) : Prop :=
  ∀ caller message, input = .review caller message → message.operation = some op → recorded n op = none →
    ∃ id index base, message = .publishRequest op id index base ∧ ∀ permissions actor' revision review,
      Accepted n caller op id index base permissions actor' revision review →
        actor' = actor ∧ permissions.epoch < 2 ^ 63

/-- A published revision waits for its record, or has it. -/
structure Held (n : FileWorldLog Id) (id : RequestId) (index : ℕ) (op : OperationId) (actor : PrincipalId)
    (stored : Review Id) (revision : RevisionRef Id) (version : WorldVersion Id) : Prop where
  published : ∃ receipt, PublishedAs n.repo id index op receipt version ∧
    receipt.expected.checkpoint = revision.checkpoint
  record :
    recorded n op = none ∧ (∀ repository, restore n repository id = .ok (stored.inRepository repository)) ∨
    ∃ epoch, recorded n op = some (publishRow id epoch op actor index revision version) ∧
      ∀ repository, ∃ review, restore n repository id = .ok review ∧ pinned review index = some revision

section retries
variable {caller : Caller} {base : VersionNumber} {permissions : AppliedPermissions} {actor : PrincipalId}
  {revision : RevisionRef Id} {stored review : Review Id}

omit [Encoding Id] [IdBytes Id] in
theorem recorded_concat {row : ReviewRow Id} (hrows : n'.rows = n.rows ++ [row]) :
    recorded n' op = (recorded n op).or (if row.command.operation = op then some row else none) := by
  unfold recorded
  rw [hrows, List.find?_append, List.find?_singleton]
  simp only [decide_eq_true_eq]

/-- A write of another message keeps the record of an operation, and the rows of a published request. -/
theorem Write.untouched (h : Write P n n') (hs : Standing n) (hp : PublishedAs n.repo id index op receipt version)
    (hP : ∀ n₀ caller message, P n₀ (.review caller message) →
      (∀ op id index base, message ≠ .publishRequest op id index base) ∧
        (recorded n op = none → message.operation ≠ some op)) :
    recorded n' op = recorded n op ∧ ∀ repository, restore n' repository id = restore n repository id := by
  have hkeep : n'.rows = n.rows → recorded n' op = recorded n op ∧
      ∀ repository, restore n' repository id = restore n repository id :=
    fun hrows => ⟨recorded_congr hrows, fun _ => restore_congr hrows⟩
  have hrow : ∀ row : ReviewRow Id, n'.rows = n.rows ++ [row] → row.request ≠ id →
      (recorded n op = none → row.command.operation ≠ op) → recorded n' op = recorded n op ∧
        ∀ repository, restore n' repository id = restore n repository id := by
    intro row hrows hid hop
    refine ⟨?_, fun repository => by rw [restore_concat hrows, if_neg hid]⟩
    rw [recorded_concat hrows]
    cases hrecorded : recorded n op with
    | some row' => rfl
    | none => rw [if_neg (hop hrecorded)]; rfl
  cases h with
  | quiet | advance | changes | policy | traces | result | publishLayer | decided | publishRequest => exact hkeep rfl
  | published hinput => exact absurd rfl ((hP _ _ _ hinput).1 _ _ _ _)
  | opened hinput _ _ hreviewed =>
      refine hrow _ rfl ?_ (fun hnone hop => (hP _ _ _ hinput).2 hnone (congrArg some hop))
      rintro rfl
      exact hs.not_reviewed hp hreviewed
  | reviewed hinput _ hop _ _ hreviewed =>
      refine hrow _ rfl ?_ (fun hnone hsame => (hP _ _ _ hinput).2 hnone (hsame ▸ hop))
      rintro rfl
      exact hs.not_reviewed hp hreviewed
omit [Encoding Id] [IdBytes Id] in
/-- A Publish is replayed under an epoch that can be stored. -/
theorem replayRow_publish {row : ReviewRow Id} {current : Revision Id}
    (hopen : review.state = .open) (hlast : review.current = some current)
    (haction : row.command.action = .publish index revision) (hepoch : row.epoch < 2 ^ 63) :
    replayRow review row = .ok (review.publishedByWorld.stamp row.command row.epoch) := by
  have hact : review.act row.command.actor row.command.action = .ok review.publishedByWorld := by
    rw [haction]
    unfold Review.act
    rw [except_bind_of_ok (Review.openRevision_eq_ok.mpr ⟨hopen, hlast⟩)]
    rfl
  unfold replayRow Review.replay Review.transition
  rw [if_neg (not_le.mpr hepoch), hact]
  rfl

/-- An accepted Publish keeps the published revision, or completes its record. -/
theorem Held.accepted {id' : RequestId} {index' : ℕ} {op' : OperationId} {actor' : PrincipalId}
    {revision' : RevisionRef Id} (hheld : Held n id index op actor stored revision version)
    (hn : n.repo.Hosted) (hn' : n'.repo.Hosted) (hl : Later n.repo n'.repo) (hpinned : pinned stored index = some revision)
    (haccepted : Accepted n caller op' id' index' base permissions actor' revision' review)
    (hclaim : op' = op → recorded n op = none → actor' = actor ∧ permissions.epoch < 2 ^ 63)
    (h : (publishAccepted permissions id' ⟨op', actor', .publish index' revision'⟩ index' revision').Leaves n n')
    (hs' : Standing n') : Held n' id index op actor stored revision version := by
  obtain ⟨⟨receipt, hp, hcheckpoint⟩, hrecorded⟩ := hheld
  have hp' := hp.later hl hn hn'
  refine ⟨⟨receipt, hp', hcheckpoint⟩, ?_⟩
  obtain ⟨n₁, hpublishing, hrow⟩ := leaves_publishAccepted hn h
  obtain rfl | ⟨receipt', version', hp₁, _, rfl⟩ := hrow
  · obtain ⟨htables, _⟩ := Publishing.tables hpublishing
    simp only [recorded_congr htables, restore_congr htables]
    exact hrecorded
  have hrows : n₁.rows ++ [publishRow id' permissions.epoch op' actor' index' revision' version'] =
      n.rows ++ [publishRow id' permissions.epoch op' actor' index' revision' version'] := by
    rw [(Publishing.tables hpublishing).1]
  generalize hafter : ({ n₁ with rows := _ } : FileWorldLog Id) = after at *
  have hrows : after.rows = n.rows ++ [publishRow id' permissions.epoch op' actor' index' revision' version'] := by
    rw [← hafter]
    exact hrows
  have hp₁ : PublishedAs after.repo id' index' op' receipt' version' := by
    rw [← hafter]
    exact hp₁
  have hrestore' : ∀ repository, restore after repository id = if id' = id then
      (restore n repository id).bind (fun review =>
        replayRow review (publishRow id' permissions.epoch op' actor' index' revision' version'))
      else restore n repository id := fun _ => restore_concat hrows
  by_cases hid : id' = id
  · -- the published revision itself: its record is completed
    subst hid
    obtain rfl := hs'.once hp' hp₁
    obtain ⟨rfl, rfl, rfl⟩ := hp'.operation_eq hp₁ hn'
    obtain ⟨hnone, hrestore⟩ | ⟨epoch, hsome, _⟩ := hrecorded
    · obtain ⟨rfl, hepoch⟩ := hclaim rfl hnone
      have hreview := Except.ok.inj (haccepted.approved.restored.symm.trans (hrestore permissions.repository))
      have hpinned' := haccepted.pinned
      rw [hreview] at hpinned'
      obtain rfl := Option.some.inj (hpinned.symm.trans hpinned')
      obtain ⟨hopen, current, _, hlast, _⟩ := haccepted.publishable
      rw [hreview] at hopen hlast
      refine .inr ⟨permissions.epoch, ?_, fun repository => ?_⟩
      · rw [recorded_concat hrows, hnone]
        exact if_pos rfl
      · rw [hrestore', if_pos rfl, hrestore repository]
        exact ⟨_, replayRow_publish hopen hlast rfl hepoch, hpinned⟩
    · have hfresh : recorded n op = none := haccepted.approved.fresh
      rw [hsome] at hfresh
      cases hfresh
  · -- another request, which has another operation
    have hop : op' ≠ op := by
      rintro rfl
      obtain rfl := Option.some.inj (Except.ok.inj (hp'.stored.symm.trans hp₁.stored))
      exact hid (revisionLayer_injective (hp₁.layer.symm.trans hp'.layer)).1
    have hrestore : ∀ repository, restore after repository id = restore n repository id := by
      intro repository
      rw [hrestore', if_neg hid]
    have hsame : recorded after op = recorded n op := by
      rw [recorded_concat hrows]
      exact (congrArg (Option.or _) (if_neg hop)).trans Option.or_none
    simp only [hsame, hrestore]
    exact hrecorded

/-- The step lemma: no unclaimed message loses a published revision. -/
theorem Held.step (hheld : Held n id index op actor stored revision version) (hs : Standing n) (hn : n.repo.Hosted)
    (hpinned : pinned stored index = some revision) (h : Step (Unclaimed op actor) n n') :
    Held n' id index op actor stored revision version := by
  obtain ⟨input, hclaim, hleaves⟩ := h
  have hwrites : Writes (fun m i => m = n ∧ i = input) n n' := writes_of_leaves hleaves hn ⟨rfl, rfl⟩
  have hs' : Standing n' := hwrites.invariant hn hs (fun _ _ hm hs hwrite => hwrite.standing hm hs)
  by_cases hpublish : ∃ caller op id index base, input = .review caller (.publishRequest op id index base)
  · obtain ⟨caller, op', id', index', base, rfl⟩ := hpublish
    obtain rfl | ⟨permissions, actor', revision', review, haccepted, hleaves⟩ :=
      leaves_publishRequest (leaves_dropped hleaves)
    · exact hheld
    refine hheld.accepted hn (hwrites.hosted hn) (hwrites.later hn) hpinned haccepted (fun hop hnone => ?_) hleaves hs'
    subst hop
    obtain ⟨id'', index'', base', hmessage, haccept⟩ := hclaim caller _ rfl rfl hnone
    obtain ⟨_, rfl, rfl, rfl⟩ := ReviewMessage.publishRequest.inj hmessage
    exact haccept permissions actor' revision' review haccepted
  · obtain ⟨⟨receipt, hp, hcheckpoint⟩, hrecorded⟩ := hheld
    have hsame := hwrites.invariant (I := fun m => Standing m ∧ PublishedAs m.repo id index op receipt version ∧
      recorded m op = recorded n op ∧ ∀ repository, restore m repository id = restore n repository id)
      hn ⟨hs, hp, rfl, fun _ => rfl⟩ (fun m m' hm hI hwrite => ?_)
    · obtain ⟨_, hp', hsame, hrestore⟩ := hsame
      refine ⟨⟨receipt, hp', hcheckpoint⟩, ?_⟩
      simp only [hsame, hrestore]
      exact hrecorded
    obtain ⟨hsm, hpm, hrecordedm, hrestorem⟩ := hI
    obtain ⟨hrecorded', hrestore'⟩ := hwrite.untouched hsm hpm (fun n₀ caller message hinput => by
      obtain ⟨rfl, rfl⟩ := hinput
      refine ⟨fun op id index base hmessage => hpublish ⟨caller, op, id, index, base, by rw [hmessage]⟩,
        fun hnone hop => ?_⟩
      obtain ⟨id', index', base, hmessage, _⟩ := hclaim caller message rfl hop (hrecordedm ▸ hnone)
      exact hpublish ⟨caller, op, id', index', base, by rw [hmessage]⟩)
    exact ⟨hwrite.standing hm hsm, hpm.later (hwrite.later hm) hm (hwrite.hosted hm),
      hrecorded'.trans hrecordedm, fun repository => (hrestore' repository).trans (hrestorem repository)⟩

omit [Encoding Id] [IdBytes Id] in
/-- What may be published is accepted under a new operation. -/
theorem exists_apply_of_publishable {p : Publishable}
    (h : review.checkPublishable index revision permissions actor = .ok p)
    (hfresh : ∀ c ∈ review.history, c.operation ≠ op) :
    ∃ applied, review.apply ⟨op, actor, .publish index revision⟩ permissions = .ok applied := by
  obtain ⟨hmaintain, current, hopen, hlast, _⟩ := Review.of_checkPublishable h
  obtain ⟨_, hpermissions, _⟩ := except_bind_eq_ok.mp h
  have hrepository : ¬ permissions.repository ≠ review.repository := by
    intro hother
    unfold Review.checkPermissions at hpermissions
    rw [if_pos hother] at hpermissions
    cases hpermissions
  have hrole : permissions.role actor ≠ none := by
    intro hnone
    unfold AppliedPermissions.has at hmaintain
    rw [hnone] at hmaintain
    cases hmaintain
  have hcheck : review.check ⟨op, actor, .publish index revision⟩ permissions = .ok () := by
    unfold Review.check
    rw [except_bind_of_ok hpermissions]
    simp only [hrole, if_false]
    rw [except_bind_of_ok h]
  have hnone : review.history.find? (fun c => decide (c.operation = op)) = none :=
    List.find?_eq_none.mpr (fun c hc => by simp [hfresh c hc])
  refine ⟨⟨review.publishedByWorld.stamp ⟨op, actor, .publish index revision⟩ permissions.epoch, false⟩, ?_⟩
  unfold Review.apply
  rw [if_neg hrepository]
  simp only [hnone]
  rw [except_bind_of_ok hcheck]
  unfold Review.transition Review.act
  rw [Review.openRevision_eq_ok.mpr ⟨hopen, hlast⟩]
  rfl

theorem answers_publishAccepted {receipt : PublicationReceipt Id}
    (hp : PublishedAs n.repo id index op receipt version)
    (hcheckpoint : receipt.expected.checkpoint = revision.checkpoint) :
    (publishAccepted permissions id ⟨op, actor, .publish index revision⟩ index revision).Answers n
      (.publishOutcome (PublishOutcome.published version).toWire)
      { n with rows := n.rows ++ [publishRow id permissions.epoch op actor index revision version] } := by
  have hgate : (publishGate op revision.tree permissions).Answers n none n :=
    answers_native_bind.mpr ⟨_, hp.stored, Durable.answers_pure.mpr ⟨rfl, rfl⟩⟩
  have hpublish : (publishCheckpoint op id index revision).Answers n (PublishOutcome.published version).toWire n := by
    refine answers_native_bind.mpr ⟨_, hp.stored, ?_⟩
    simp only [hp.layer, hcheckpoint, ne_eq, not_true, or_self, if_false]
    exact Durable.answers_pure.mpr ⟨by rw [hp.outcome], rfl⟩
  unfold publishAccepted
  rw [Durable.answers_bind_of hgate]
  simp only
  rw [Durable.answers_bind_of hpublish]
  exact Durable.answers_bind.mpr ⟨(), _, Durable.answers_transact.mpr rfl, Durable.answers_pure.mpr ⟨rfl, rfl⟩⟩

omit [Encoding Id] [IdBytes Id] in
/-- An operation has one row. -/
theorem Standing.filter_eq {row : ReviewRow Id} (hdistinct : (n.rows.map (fun row => row.command.operation)).Nodup)
    (h : recorded n op = some row) : n.rows.filter (fun row => decide (row.command.operation = op)) = [row] := by
  unfold recorded at h
  generalize n.rows = rows at h hdistinct
  induction rows with
  | nil => cases h
  | cons first rows ih =>
      rw [List.map_cons, List.nodup_cons] at hdistinct
      obtain ⟨hfirst, hdistinct⟩ := hdistinct
      rw [List.find?_cons] at h
      rw [List.filter_cons]
      by_cases hop : first.command.operation = op
      · simp only [hop, decide_true, Option.some.injEq] at h
        subst h
        simp only [hop, decide_true, if_true, List.cons.injEq, true_and]
        refine List.filter_eq_nil_iff.mpr (fun other hm hother => ?_)
        exact hfirst (hop ▸ List.mem_map.mpr ⟨other, hm, of_decide_eq_true hother⟩)
      · simp only [hop, decide_false] at h
        simp only [hop, decide_false, Bool.false_eq_true, if_false]
        exact ih h hdistinct

/-- A retry that is allowed answers the version, and leaves one row of its operation. -/
theorem Held.retries {grant : Grant} (hheld : Held n id index op actor stored revision version) (hs : Standing n)
    (hpinned : pinned stored index = some revision)
    (hauthorize : caller.authorize .publish (n.requests.get? id) = .ok (grant, permissions))
    (hactor : principal grant = .ok actor)
    (hallowed : recorded n op = none → ∃ p,
      (stored.inRepository permissions.repository).checkPublishable index revision permissions actor = .ok p) :
    ∃ n' epoch, (publishRequest caller op id index revision.base).Answers n
        (.publishOutcome (PublishOutcome.published version).toWire) n' ∧ n'.repo = n.repo ∧
      n'.rows.filter (fun row => decide (row.command.operation = op)) =
        [publishRow id epoch op actor index revision version] := by
  obtain ⟨⟨receipt, hp, hcheckpoint⟩, hrecord⟩ := hheld
  have hknown := (hs.current hp).1
  obtain ⟨hnone, hrestore⟩ | ⟨epoch, hsome, hrestore⟩ := hrecord
  · obtain ⟨p, hp'⟩ := hallowed hnone
    have hrestored := hrestore permissions.repository
    obtain ⟨applied, happly⟩ := exists_apply_of_publishable hp' (fresh_of_recorded hrestored hnone)
    have hpinned' : pinned (stored.inRepository permissions.repository) index = some revision := hpinned
    have haccepted : Accepted n caller op id index revision.base permissions actor revision _ :=
      ⟨⟨grant, hauthorize, hactor⟩, hpinned', rfl, hnone, hknown, hrestored, rfl, applied, happly⟩
    refine ⟨_, permissions.epoch, haccepted.answers.mpr (answers_publishAccepted hp hcheckpoint), rfl, ?_⟩
    have hfilter := List.filter_eq_nil_iff.mpr (List.find?_eq_none.mp hnone)
    rw [List.filter_append, hfilter, List.filter_singleton]
    simp only [publishRow, decide_true, cond_true, List.nil_append]
  · obtain ⟨review, hrestored, hpinned'⟩ := hrestore permissions.repository
    refine ⟨n, epoch, ?_, rfl, Standing.filter_eq hs.distinct hsome⟩
    have htarget : (target caller .publish id).Answers n (grant, permissions, review) n :=
      answers_target.mpr ⟨rfl, hauthorize, hknown, hrestored⟩
    have hdecide : (decideCommand permissions review id ⟨op, actor, .publish index revision⟩).Answers n
        (.replayed (.publishOutcome (PublishOutcome.published version).toWire)) n := by
      refine answers_look_bind.mpr ?_
      simp only [hsome, publishRow, and_self, if_true]
      exact Durable.answers_pure.mpr ⟨rfl, rfl⟩
    unfold publishRequest
    rw [Durable.answers_bind_of htarget]
    simp only [answers_encoded_bind, hactor, Except.ok.injEq, exists_eq_left', hpinned', ne_eq, not_true, if_false]
    rw [Durable.answers_bind_of hdecide]
    exact Durable.answers_pure.mpr ⟨rfl, rfl⟩

omit [Encoding Id] [IdBytes Id] in
theorem Accepted.unique {permissions' : AppliedPermissions} {actor' : PrincipalId} {revision' : RevisionRef Id}
    {review' : Review Id} (h : Accepted n caller op id index base permissions actor revision review)
    (h' : Accepted n caller op id index base permissions' actor' revision' review') :
    permissions' = permissions ∧ actor' = actor ∧ revision' = revision ∧ review' = review := by
  obtain ⟨grant, hauthorize, hactor⟩ := h.authorized
  obtain ⟨grant', hauthorize', hactor'⟩ := h'.authorized
  obtain ⟨rfl, rfl⟩ := Prod.mk.inj (Except.ok.inj (hauthorize.symm.trans hauthorize'))
  obtain rfl := Except.ok.inj (hactor.symm.trans hactor')
  obtain rfl := Except.ok.inj (h.approved.restored.symm.trans h'.approved.restored)
  exact ⟨rfl, rfl, (Option.some.inj (h.pinned.symm.trans h'.pinned)).symm, rfl⟩

/-- A Publish that is in the World when it ends, or is stopped, waits for its record or has it. -/
theorem Accepted.held {receipt : PublicationReceipt Id}
    (haccepted : Accepted n caller op id index base permissions actor revision review) (hn : n.repo.Hosted)
    (hs' : Standing n') (hepoch : permissions.epoch < 2 ^ 63) (h : (publishRequest caller op id index base).Leaves n n')
    (hp : PublishedAs n'.repo id index op receipt version) : Held n' id index op actor review revision version := by
  obtain ⟨hopen, current, _, hlast, rfl, hrevision, _⟩ := haccepted.publishable
  have hrestore : ∀ repository, restore n repository id = .ok (review.inRepository repository) :=
    restore_inRepository haccepted.approved.restored
  -- the rows of this request are old, or its record is new
  have hrecord : (recorded n' op = none ∧
        (∀ repository, restore n' repository id = .ok (review.inRepository repository)) ∨
      ∃ epoch, recorded n' op = some (publishRow id epoch op actor current.index revision version) ∧
        ∀ repository, restore n' repository id = .ok ((review.inRepository repository).publishedByWorld.stamp
          ⟨op, actor, .publish current.index revision⟩ epoch)) := by
    obtain rfl | ⟨permissions', actor', revision', review', haccepted', hleaves⟩ := leaves_publishRequest h
    · exact .inl ⟨haccepted.approved.fresh, hrestore⟩
    obtain ⟨rfl, rfl, rfl, rfl⟩ := haccepted.unique haccepted'
    obtain ⟨n₁, hpublishing, hrow⟩ := leaves_publishAccepted hn hleaves
    obtain ⟨htables, _⟩ := Publishing.tables hpublishing
    obtain rfl | ⟨receipt', version', hp', _, rfl⟩ := hrow
    · simp only [recorded_congr htables, restore_congr htables]
      exact .inl ⟨haccepted.approved.fresh, hrestore⟩
    have hstored : n₁.repo.publication op = .ok (some receipt) := hp.stored
    obtain rfl := Option.some.inj (Except.ok.inj (hp'.stored.symm.trans hstored))
    obtain rfl := PublishOutcome.published.inj (hp'.outcome.symm.trans hp.outcome)
    refine .inr ⟨permissions'.epoch, ?_, fun repository => ?_⟩
    · rw [recorded_concat rfl, recorded_congr htables]
      have hfresh : recorded n op = none := haccepted.approved.fresh
      rw [hfresh]
      exact if_pos rfl
    · rw [restore_concat rfl, restore_congr htables, hrestore]
      have hreplay : replayRow (review'.inRepository repository)
          (publishRow id permissions'.epoch op actor' current.index revision' version') =
            .ok ((review'.inRepository repository).publishedByWorld.stamp
              ⟨op, actor', .publish current.index revision'⟩ permissions'.epoch) :=
        replayRow_publish hopen hlast rfl hepoch
      exact (if_pos rfl).trans hreplay
  have hpinned : ∀ repository, Reviewing.pinned (review.inRepository repository) current.index = some revision :=
    fun _ => haccepted.pinned
  have hcheckpoint : receipt.expected.checkpoint = revision.checkpoint := by
    obtain ⟨_, hcurrent⟩ := hs'.current hp
    obtain ⟨_, hrestore'⟩ | ⟨epoch, _, hrestore'⟩ := hrecord
    · obtain ⟨current', hlast', _, hsame⟩ := hcurrent _ _ (hrestore' review.repository)
      obtain rfl := Option.some.inj (hlast.symm.trans hlast')
      rw [← hsame, hrevision]
    · obtain ⟨current', hlast', _, hsame⟩ := hcurrent _ _ (hrestore' review.repository)
      obtain rfl := Option.some.inj (hlast.symm.trans hlast')
      rw [← hsame, hrevision]
  refine ⟨⟨receipt, hp, hcheckpoint⟩, hrecord.imp_right (fun hrow => ?_)⟩
  obtain ⟨epoch, hsome, hrestore'⟩ := hrow
  exact ⟨epoch, hsome, fun repository => ⟨_, hrestore' repository, hpinned repository⟩⟩

end retries

/-! ### Crash safety -/

/-- What a node keeps of the requests that it publishes, wherever it was stopped. -/
structure CrashSafe (n : FileWorldLog Id) : Prop where
  /-- A request publishes one revision, under one operation. -/
  once : ∀ id index index' op op' receipt receipt' version version',
    PublishedAs n.repo id index op receipt version → PublishedAs n.repo id index' op' receipt' version' →
      index = index' ∧ op = op' ∧ version = version'
  brought : ∀ input n', (Input.run input).Leaves n n' → ∀ id index op receipt version,
    PublishedAs n'.repo id index op receipt version → PublishedAs n.repo id index op receipt version ∨
      ∃ caller base, input = .review caller (.publishRequest op id index base)
  /-- A version that a Publish brings is the approved checkpoint of the current revision, upon the head. -/
  composes : ∀ caller op id index base n', (publishRequest caller op id index base).Leaves n n' →
    n'.repo.versions = n.repo.versions ∨ ∃ permissions actor revision review current p receipt version,
      Accepted n caller op id index base permissions actor revision review ∧ review.state = .open ∧
      review.current = some current ∧ current.index = index ∧ current.revision = revision ∧
      review.checkPublishable index revision permissions actor = .ok p ∧ n.repo.publications.get? op = none ∧
      PublishedAs n'.repo id index op receipt version ∧ Overwrites n.repo n'.repo revision.checkpoint version
  closed : ∀ id index op receipt version, PublishedAs n.repo id index op receipt version →
    ∀ caller message, message.Judges id → (∀ n', (handle caller message).Leaves n n' → n'.rows = n.rows) ∧
      ∀ reply n', (handle caller message).Answers n reply n' → (∃ code, reply = .refused code) ∨
        ∃ row ∈ n.rows, row.request = id ∧ message.operation = some row.command.operation ∧ reply = row.reply
  /-- Until its record is there, a retry completes it. -/
  retried : ∀ caller op id index base permissions actor revision review,
    Accepted n caller op id index base permissions actor revision review → permissions.epoch < 2 ^ 63 →
    ∀ n₁, (publishRequest caller op id index base).Leaves n n₁ → ∀ receipt version,
    PublishedAs n₁.repo id index op receipt version → ∀ n', Run (Unclaimed op actor) n₁ n' →
      Held n' id index op actor review revision version ∧ ∀ caller' grant permissions',
        caller'.authorize .publish (n'.requests.get? id) = .ok (grant, permissions') → principal grant = .ok actor →
        (recorded n' op = none → ∃ p,
          (review.inRepository permissions'.repository).checkPublishable index revision permissions' actor = .ok p) →
        ∃ n'' epoch, (publishRequest caller' op id index base).Answers n'
            (.publishOutcome (PublishOutcome.published version).toWire) n'' ∧ n''.repo = n'.repo ∧
          n''.rows.filter (fun row => decide (row.command.operation = op)) =
            [publishRow id epoch op actor index revision version]

theorem Run.held {actor : PrincipalId} {revision : RevisionRef Id} {stored : Review Id}
    (h : Run (Unclaimed op actor) n n') (hs : Standing n) (hn : n.repo.Hosted)
    (hpinned : Reviewing.pinned stored index = some revision)
    (hheld : Held n id index op actor stored revision version) :
    Held n' id index op actor stored revision version ∧ Standing n' ∧ n'.repo.Hosted := by
  induction h with
  | refl => exact ⟨hheld, hs, hn⟩
  | tail _ hstep ih =>
      obtain ⟨hheld, hs, hn⟩ := ih
      have hheld' := hheld.step hs hn hpinned hstep
      obtain ⟨input, _, hleaves⟩ := hstep
      have hwrites := writes_of_leaves (P := anyInput) hleaves hn trivial
      exact ⟨hheld', hwrites.invariant hn hs (fun _ _ hm hs hwrite => hwrite.standing hm hs), hwrites.hosted hn⟩

/-- A reviewed publish is crash-safe: its request is closed and never publishes again, and while nobody claims its
operation a retry answers its version and records it once. -/
theorem Reachable.crash_safe (h : Reachable anyInput n) : CrashSafe n where
  once id index index' op op' receipt receipt' version version' hp hp' := by
    obtain rfl := h.standing.once hp hp'
    obtain ⟨hop, _, hversion⟩ := hp.operation_eq hp' h.hosted
    exact ⟨rfl, hop, hversion⟩
  brought input n' hleaves id index op receipt version hp := by
    have hwrites : Writes (fun _ i => i = input) n n' := writes_of_leaves hleaves h.hosted rfl
    obtain hold | ⟨m, hbrought⟩ := hwrites.brought h.hosted hp.stored
    · exact .inl ⟨hold, hp.layer, hp.outcome⟩
    cases hbrought with
    | layer _ _ _ hreview hlayer => exact absurd (hlayer.symm.trans hp.layer) (layer_ne_revisionLayer hreview)
    | @review n₀ caller id' index' base hinput _ hlayer =>
        obtain ⟨rfl, rfl⟩ := revisionLayer_injective (hlayer.symm.trans hp.layer)
        exact .inr ⟨caller, base, hinput.symm⟩
  composes caller op id index base n' hleaves := by
    obtain hsame | ⟨permissions, actor, revision, review, receipt, version, haccepted, hfresh, hp, _, hoverwrites⟩ :=
      publishes_of_publishRequest h.hosted hleaves
    · exact .inl hsame
    · obtain ⟨hopen, current, p, hlast, hindex, hrevision, hpublishable⟩ := haccepted.publishable
      exact .inr ⟨permissions, actor, revision, review, current, p, receipt, version, haccepted, hopen, hlast, hindex,
        hrevision, hpublishable, hfresh, hp, hoverwrites⟩
  closed id index op receipt version hp caller message hjudges := h.standing.closed h.hosted hp hjudges
  retried caller op id index base permissions actor revision review haccepted hepoch n₁ hleaves receipt version hp n'
      hrun := by
    have hwrites := writes_publishRequest (P := anyInput) hleaves h.hosted trivial
    have hs₁ := hwrites.invariant h.hosted h.standing (fun _ _ hm hs hwrite => hwrite.standing hm hs)
    obtain ⟨hheld, hs', _⟩ := hrun.held hs₁ (hwrites.hosted h.hosted) haccepted.pinned
      (haccepted.held h.hosted hs₁ hepoch hleaves hp)
    refine ⟨hheld, fun caller' grant permissions' hauthorize hactor hallowed => ?_⟩
    obtain rfl := haccepted.base
    exact hheld.retries hs' haccepted.pinned hauthorize hactor hallowed

/-! ### A lost record -/

theorem opaqueId_s : OpaqueId [115] := by decide

/-- A request on a new node, published under operation `2`, whose record is lost. -/
theorem exists_lost : ∃ (n : FileWorldLog ℕ) (r : Repository ℕ) (revision : RevisionRef ℕ) (review : Review ℕ)
    (receipt : PublicationReceipt ℕ) (version : WorldVersion ℕ), Reachable anyInput n ∧
      Accepted n maintainer ⟨[50]⟩ ⟨[114], opaqueId_r⟩ 1 0 soleMaintainer (letter 99 opaqueByte_c) revision review ∧
      (publishRequest maintainer ⟨[50]⟩ ⟨[114], opaqueId_r⟩ 1 0).Leaves n { n with repo := r } ∧
      PublishedAs r ⟨[114], opaqueId_r⟩ 1 ⟨[50]⟩ receipt version ∧ Blank r revision.checkpoint ∧
      n.requests = SortedMap.empty.insert ⟨[114], opaqueId_r⟩ [97] ∧
      n.rows = [⟨⟨[114], opaqueId_r⟩, 0, ⟨⟨[49]⟩, letter 99 opaqueByte_c, .open revision⟩, .accepted 1⟩] := by
  obtain ⟨head, r₀, hcreated, hreach⟩ := System.exists_created (0 : ℕ) ⟨[97]⟩
  have hleaves : (Input.run (.createLayer ⟨[97]⟩ 0)).Leaves (initial 0) { initial 0 with repo := r₀ } := by
    refine answers_dropped (a := head) ?_
    refine answers_native_bind.mpr ⟨⟨0, 0, versionId none emptyId SparseChanges.empty⟩, rfl, ?_⟩
    exact answers_store.mpr ⟨r₀, hcreated.created, rfl⟩
  have hreach₀ : Reachable anyInput { initial 0 with repo := r₀ } := ⟨0, .single ⟨_, trivial, hleaves⟩⟩
  obtain ⟨n, opened, hn, _, hrequests, hrows, _, hblank, hpublish⟩ :=
    exists_publishable hcreated hreach₀ (fun _ => trivial)
  obtain ⟨_, _, r, hl, hr, _, _, hversions, hstopped, _⟩ := hpublish ⟨[50]⟩ (by decide)
  obtain hsame | ⟨permissions, actor, revision, review, receipt, version, haccepted, _, hp, _⟩ :=
    publishes_of_publishRequest hn.hosted hstopped
  · have hlonger : n.repo.versions ++ [_] = n.repo.versions := hversions.symm.trans hsame
    simp at hlonger
  -- who published, and what
  have hauthorize : maintainer.authorize .publish (n.requests.get? ⟨[114], opaqueId_r⟩) =
      .ok (⟨some [99], .maintain, []⟩, soleMaintainer) := by
    rw [hrequests]
    rfl
  obtain ⟨grant, hauthorize', hactor⟩ := haccepted.authorized
  obtain ⟨rfl, rfl⟩ := Prod.mk.inj (Except.ok.inj (hauthorize.symm.trans hauthorize'))
  obtain rfl : letter 99 opaqueByte_c = actor := Except.ok.inj hactor
  obtain rfl : opened = revision := by
    obtain ⟨row, hm, hbrings⟩ := haccepted.approved.exists_row
    rw [hrows] at hm
    obtain rfl := List.mem_singleton.mp hm
    obtain hopen | ⟨_, hrevise⟩ := hbrings
    · exact Action.open.inj hopen
    · cases hrevise
  obtain ⟨S, hs⟩ := hn.hosted.sound
  obtain ⟨S', hs'⟩ := hr.sound
  obtain ⟨checkpoint, hread, hbase, hchanges⟩ := hblank.read
  exact ⟨n, r, opened, review, receipt, version, hn, haccepted, hstopped, hp,
    ⟨checkpoint, hl.checkpointIn hs.chain hs'.chain _ _ hread, hbase, hchanges⟩, hrequests, hrows⟩

/-- The retry of a lost record answers its version. -/
theorem crash_safe_lost : ∃ (n n' n'' : FileWorldLog ℕ) (epoch : ℕ) (revision : RevisionRef ℕ)
    (receipt : PublicationReceipt ℕ) (version : WorldVersion ℕ), Reachable anyInput n ∧
      (publishRequest maintainer ⟨[50]⟩ ⟨[114], opaqueId_r⟩ 1 0).Leaves n n' ∧
      PublishedAs n'.repo ⟨[114], opaqueId_r⟩ 1 ⟨[50]⟩ receipt version ∧ recorded n' ⟨[50]⟩ = none ∧
      (publishRequest maintainer ⟨[50]⟩ ⟨[114], opaqueId_r⟩ 1 0).Answers n'
        (.publishOutcome (PublishOutcome.published version).toWire) n'' ∧
      n''.rows.filter (fun row => decide (row.command.operation = (⟨[50]⟩ : OperationId))) =
        [publishRow ⟨[114], opaqueId_r⟩ epoch ⟨[50]⟩ (letter 99 opaqueByte_c) 1 revision version] := by
  obtain ⟨n, r, revision, review, receipt, version, hn, haccepted, hstopped, hp, _, hrequests, hrows⟩ := exists_lost
  have hepoch : soleMaintainer.epoch < 2 ^ 63 := by decide
  obtain ⟨_, hretry⟩ := hn.crash_safe.retried maintainer ⟨[50]⟩ _ 1 0 _ _ revision review haccepted hepoch _ hstopped
    receipt version hp _ .refl
  obtain ⟨grant, hauthorize, hactor⟩ := haccepted.authorized
  obtain ⟨_, _, p, _, _, _, hpublishable⟩ := haccepted.publishable
  have hrepository : review.inRepository soleMaintainer.repository = review := by
    have hsame := restore_inRepository haccepted.approved.restored soleMaintainer.repository
    exact Except.ok.inj (hsame.symm.trans haccepted.approved.restored)
  obtain ⟨n'', epoch, hanswers, _, hfilter⟩ := hretry maintainer grant soleMaintainer hauthorize hactor
    (fun _ => ⟨p, by rw [hrepository]; exact hpublishable⟩)
  exact ⟨n, _, n'', epoch, revision, receipt, version, hn, hstopped, hp, haccepted.approved.fresh, hanswers, hfilter⟩

/-- Another request is opened under the operation of a lost record: the retry is refused, and never recorded. -/
theorem crash_safe_claimed : ∃ (n n₁ n₂ : FileWorldLog ℕ) (revision : RevisionRef ℕ) (review : Review ℕ)
    (p : Publishable) (receipt : PublicationReceipt ℕ) (version : WorldVersion ℕ), Reachable anyInput n ∧
      Accepted n maintainer ⟨[50]⟩ ⟨[114], opaqueId_r⟩ 1 0 soleMaintainer (letter 99 opaqueByte_c) revision review ∧
      (publishRequest maintainer ⟨[50]⟩ ⟨[114], opaqueId_r⟩ 1 0).Leaves n n₁ ∧
      PublishedAs n₁.repo ⟨[114], opaqueId_r⟩ 1 ⟨[50]⟩ receipt version ∧ Run anyInput n₁ n₂ ∧
      restore n₂ soleMaintainer.repository ⟨[114], opaqueId_r⟩ = .ok review ∧
      review.checkPublishable 1 revision soleMaintainer (letter 99 opaqueByte_c) = .ok p ∧
      (publishRequest maintainer ⟨[50]⟩ ⟨[114], opaqueId_r⟩ 1 0).Answers n₂
        (.publishOutcome (.refused "operation_id_reused")) n₂ ∧
      ∀ row ∈ n₂.rows, row.request = ⟨[114], opaqueId_r⟩ → ∀ index revision,
        row.command.action ≠ .publish index revision := by
  obtain ⟨n, r, revision, review, receipt, version, hn, haccepted, hstopped, hp, hblank, hrequests, hrows⟩ := exists_lost
  have hr : ({ n with repo := r } : FileWorldLog ℕ).repo.Hosted :=
    (writes_publishRequest (P := anyInput) hstopped hn.hosted trivial).hosted hn.hosted
  obtain ⟨grant, hauthorize, hactor⟩ := haccepted.authorized
  obtain ⟨_, _, p, _, _, _, hpublishable⟩ := haccepted.publishable
  -- request `s` is opened under the same operation
  have hother : ∀ row ∈ n.rows, row.request ≠ (⟨[115], opaqueId_s⟩ : RequestId) ∧
      row.command.operation ≠ (⟨[50]⟩ : OperationId) := by
    rw [hrows]
    intro row hm
    obtain rfl := List.mem_singleton.mp hm
    have hid : (⟨[114], opaqueId_r⟩ : RequestId) ≠ ⟨[115], opaqueId_s⟩ := by decide
    have hop : (⟨[49]⟩ : OperationId) ≠ ⟨[50]⟩ := by decide
    exact ⟨hid, hop⟩
  have hnew : n.requests.get? ⟨[115], opaqueId_s⟩ = none := by
    rw [hrequests]
    rfl
  have hrole : soleMaintainer.role (letter 99 opaqueByte_c) ≠ none := by decide
  have hreview : maintainer.authorize .reviewWrite (some (revisionLayer ℕ ⟨[114], opaqueId_r⟩ 1).text) =
      .ok (⟨some [99], .maintain, []⟩, soleMaintainer) := rfl
  obtain ⟨tree, objects, hquiet, hopen⟩ :=
    exists_answers_openRequest (n := { n with repo := r }) hreview rfl hrole hr (hp.state hr) hblank hother hnew
  obtain ⟨n₂, hrun, hrows₂, hrequests₂⟩ : ∃ n₂, Run anyInput { n with repo := r } n₂ ∧
      n₂.rows = n.rows ++ [⟨⟨[115], opaqueId_s⟩, soleMaintainer.epoch, ⟨⟨[50]⟩, letter 99 opaqueByte_c,
        .open ⟨0, revision.checkpoint, tree, none⟩⟩, .accepted 1⟩] ∧
      n₂.requests.get? ⟨[114], opaqueId_r⟩ = n.requests.get? ⟨[114], opaqueId_r⟩ := by
    refine ⟨_, .single ⟨.review maintainer (.openRequest ⟨[50]⟩ ⟨[115], opaqueId_s⟩
      (revisionLayer ℕ ⟨[114], opaqueId_r⟩ 1) revision.checkpoint 0), trivial, answers_dropped hopen⟩, rfl, ?_⟩
    show (n.requests.insert _ _).get? _ = _
    rw [SortedMap.get?_insert, if_neg (by decide)]
  have hrestore : restore n₂ soleMaintainer.repository ⟨[114], opaqueId_r⟩ = .ok review := by
    have hid : (⟨[115], opaqueId_s⟩ : RequestId) ≠ ⟨[114], opaqueId_r⟩ := by decide
    rw [restore_concat hrows₂]
    exact (if_neg hid).trans haccepted.approved.restored
  have hrecorded : recorded n₂ ⟨[50]⟩ = some ⟨⟨[115], opaqueId_s⟩, soleMaintainer.epoch,
      ⟨⟨[50]⟩, letter 99 opaqueByte_c, .open ⟨0, revision.checkpoint, tree, none⟩⟩, .accepted 1⟩ := by
    have hfresh : recorded n ⟨[50]⟩ = none := haccepted.approved.fresh
    rw [recorded_concat hrows₂, hfresh]
    rfl
  refine ⟨n, _, n₂, revision, review, p, receipt, version, hn, haccepted, hstopped, hp, hrun, hrestore, hpublishable,
    ?_, ?_⟩
  · have htarget : (target maintainer .publish ⟨[114], opaqueId_r⟩).Answers n₂ (grant, soleMaintainer, review) n₂ :=
      answers_target.mpr ⟨rfl, hrequests₂ ▸ hauthorize, hrequests₂ ▸ haccepted.approved.known, hrestore⟩
    have hdecide : (decideCommand soleMaintainer review ⟨[114], opaqueId_r⟩
        ⟨⟨[50]⟩, letter 99 opaqueByte_c, .publish 1 revision⟩).Answers n₂ (.refused "operation_id_reused") n₂ := by
      refine answers_look_bind.mpr ?_
      have hother : (⟨[115], opaqueId_s⟩ : RequestId) ≠ ⟨[114], opaqueId_r⟩ := by decide
      simp only [hrecorded, hother, false_and, if_false]
      exact Durable.answers_pure.mpr ⟨rfl, rfl⟩
    unfold publishRequest
    rw [Durable.answers_bind_of htarget]
    simp only [answers_encoded_bind, hactor, Except.ok.injEq, exists_eq_left', haccepted.pinned, haccepted.base, ne_eq,
      not_true, if_false]
    rw [Durable.answers_bind_of hdecide]
    exact Durable.answers_pure.mpr ⟨rfl, rfl⟩
  · intro row hm hid index revision' haction
    rw [hrows₂, hrows] at hm
    cases List.mem_append.mp hm with
    | inl hm =>
        obtain rfl := List.mem_singleton.mp hm
        cases haction
    | inr hm =>
        obtain rfl := List.mem_singleton.mp hm
        cases haction

end FileWorldLog

end Javelin
