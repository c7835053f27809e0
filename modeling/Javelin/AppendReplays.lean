import Javelin.Appends

/-! # Appends replay

A node holds a repository and the uploaded changes objects.  Once an append is recorded under an
operation ID, the same append is answered alike in every later state, and nothing is added
(`Replays.again`); another append under that ID that could be captured is refused as reused
(`Replays.reused`).  `LayerNode.Reachable.append_replays` puts both together with what a new append needs. -/

namespace Javelin

open KeyedList

variable {Id : Type} [LinearOrder Id] [Encoding Id]

namespace Repository
variable {r r' : Repository Id} {S : VersionNumber → Manifest Id} {op : OperationId} {layer : LayerId}
  {parent : Option Id} {changes : SparseChanges Id} {state : LayerState Id}

/-! ### Trying heads -/

/-- The Layer has had a live head at the parent. -/
def Holds (r : Repository Id) (layer : LayerId) (parent : Option Id) : Prop :=
  ∃ head, r.verifyHead head = .ok () ∧ head.layer = layer ∧ some head.checkpoint = parent

theorem Holds.exists_layerStateIn (h : r.Holds layer parent) (hs : Sound r S) :
    ∃ state, r.layerStateIn layer = .ok state := by
  obtain ⟨head, hverify, rfl, _⟩ := h
  obtain ⟨_, _, e, he, _⟩ := verifyHead_eq_ok.mp hverify
  apply hs.exists_layerStateIn
  unfold layers
  rw [List.mem_filter, decide_eq_true_eq]
  refine ⟨?_, List.ne_nil_of_mem (SortedMap.get?_eq_some.mp he)⟩
  rw [SortedMap.mem_keys]
  cases hevents : r.layerHeads.get? head.layer with
  | some _ => rfl
  | none =>
      unfold events at he
      rw [hevents] at he
      cases he

/-- An append of uploaded changes to a Layer that exists is decided over the heads at the parent. -/
theorem Sound.append_eq (hs : Sound r S) {table : ChangesTable Id} {id : Id}
    (hchanges : table.get? id = some changes) (hstate : r.layerStateIn layer = .ok state) :
    ∃ heads, HeadsAt r layer parent heads ∧ r.append table op layer parent id =
      r.answerAppend state (r.tryHeads op changes heads none) := by
  obtain ⟨history, hhistory, hheads⟩ := hs.exists_headsAt hstate parent
  refine ⟨_, hheads, ?_⟩
  unfold Repository.append
  rw [hchanges, hstate]
  simp only
  rw [hhistory]
  rfl

theorem tryHeads_cons (head : LayerHead Id) (heads : List (LayerHead Id))
    (last : Option (Except (Error Id) (LayerUpdate Id × Repository Id))) :
    r.tryHeads op changes (head :: heads) last =
      match r.captureLayer op head changes none with
      | .error (.operationIdReused reused) => r.tryHeads op changes heads (some (.error (.operationIdReused reused)))
      | update => some update := rfl

/-- A result comes from one of the heads. -/
theorem of_tryHeads {update : LayerUpdate Id × Repository Id} : ∀ (heads : List (LayerHead Id)) last,
    r.tryHeads op changes heads last = some (.ok update) → last ≠ some (.ok update) →
      ∃ head ∈ heads, r.captureLayer op head changes none = .ok update := by
  intro heads
  induction heads with
  | nil => exact fun last h hne => absurd h hne
  | cons head heads ih =>
      intro last h _
      rw [tryHeads_cons] at h
      cases hcapture : r.captureLayer op head changes none with
      | ok update' =>
          rw [hcapture] at h
          exact ⟨head, List.mem_cons_self, hcapture.trans (Option.some.inj h)⟩
      | error e =>
          rw [hcapture] at h
          cases e with
          | operationIdReused reused =>
              obtain ⟨head', hmem, hok⟩ := ih _ h (by simp)
              exact ⟨head', List.mem_cons_of_mem _ hmem, hok⟩
          | _ => cases h

/-- The one head that is not refused as reused decides. -/
theorem tryHeads_of_mem {update : LayerUpdate Id × Repository Id} {head : LayerHead Id} :
    ∀ (heads : List (LayerHead Id)) last, head ∈ heads →
      r.captureLayer op head changes none = .ok update →
      (∀ other ∈ heads, other ≠ head →
        r.captureLayer op other changes none = .error (.operationIdReused op)) →
      r.tryHeads op changes heads last = some (.ok update) := by
  intro heads
  induction heads with
  | nil => exact fun _ h => absurd h List.not_mem_nil
  | cons first heads ih =>
      intro last hmem hok hothers
      rw [tryHeads_cons]
      by_cases h : first = head
      · rw [h, hok]
      · rw [hothers first List.mem_cons_self h]
        cases List.mem_cons.mp hmem with
        | inl he => exact absurd he.symm h
        | inr htail => exact ih _ htail hok (fun other ho => hothers other (List.mem_cons_of_mem _ ho))

/-- If every head is refused alike, the append is. -/
theorem tryHeads_of_error {e : Error Id} : ∀ (heads : List (LayerHead Id)) last, heads ≠ [] →
    (∀ head ∈ heads, r.captureLayer op head changes none = .error e) →
    r.tryHeads op changes heads last = some (.error e) := by
  intro heads
  induction heads with
  | nil => exact fun _ h => absurd rfl h
  | cons head heads ih =>
      intro last _ hall
      rw [tryHeads_cons]
      rw [hall head List.mem_cons_self]
      cases e with
      | operationIdReused reused =>
          cases heads with
          | nil => rfl
          | cons next heads =>
              exact ih _ (List.cons_ne_nil _ _) (fun other ho => hall other (List.mem_cons_of_mem _ ho))
      | _ => rfl

/-- If anything is tried there is a result. -/
theorem eq_nil_of_tryHeads : ∀ (heads : List (LayerHead Id)) last,
    r.tryHeads op changes heads last = none → heads = [] ∧ last = none := by
  intro heads
  induction heads with
  | nil => exact fun last h => ⟨rfl, h⟩
  | cons head heads ih =>
      intro last h
      rw [tryHeads_cons] at h
      split at h
      · exact absurd (ih _ h).2 (by simp)
      · cases h

/-! ### Preparing on a parent -/

/-- The checkpoint that the changes prepare on a parent. -/
def preparedAt (r : Repository Id) (parent : Id) (changes : SparseChanges Id) : Except (Error Id) Id := do
  let before ← r.checkpointIn parent
  let (candidate, _) ← r.prepareCheckpoint before.base changes before.sources none
  return candidate.id

/-- The update of a capture depends on the parent's checkpoint. -/
theorem preparedAt_eq_ok {head : LayerHead Id} {checkpoint : Id} :
    r.preparedAt head.checkpoint changes = .ok checkpoint ↔
      ∃ candidate r₀, LayerRequest.update r (.capture head changes none) =
        .ok (⟨head, candidate, false, none, none⟩, r₀) ∧ candidate.id = checkpoint := by
  unfold preparedAt LayerRequest.update
  simp only [except_bind_eq_ok]
  constructor
  · intro h
    obtain ⟨before, hbefore, ⟨candidate, r₀⟩, hprepare, hpure⟩ := h
    exact ⟨candidate, r₀, ⟨before, hbefore, ⟨candidate, r₀⟩, hprepare, rfl⟩, Except.ok.inj hpure⟩
  · intro h
    obtain ⟨candidate, r₀, ⟨before, hbefore, ⟨candidate', r₁⟩, hprepare, hpure⟩, hid⟩ := h
    obtain ⟨hupdate, _⟩ := Prod.mk.inj (Except.ok.inj hpure)
    have hcandidate := congrArg Update.candidate hupdate
    simp only at hcandidate
    exact ⟨before, hbefore, ⟨candidate', r₁⟩, hprepare, by rw [hcandidate, ← hid]; rfl⟩

theorem preparedAt_eq_error {head : LayerHead Id} {e : Error Id} :
    r.preparedAt head.checkpoint changes = .error e ↔
      LayerRequest.update r (.capture head changes none) = .error e := by
  unfold preparedAt LayerRequest.update
  simp only
  cases r.checkpointIn head.checkpoint with
  | error e' =>
      show Except.error e' = _ ↔ Except.error e' = _
      simp
  | ok before =>
      show (r.prepareCheckpoint before.base changes before.sources none >>= _) = _ ↔
        (r.prepareCheckpoint before.base changes before.sources none >>= _) = _
      cases r.prepareCheckpoint before.base changes before.sources none with
      | error e' =>
          show Except.error e' = _ ↔ Except.error e' = _
          simp
      | ok prepared =>
          obtain ⟨candidate, r₀⟩ := prepared
          constructor
          · intro h
            cases h
          · intro h
            cases h

/-! ### Captures under a recorded operation -/

/-- An operation recorded as the capture of a head at which the changes prepared a checkpoint. -/
structure Appended (r : Repository Id) (op : OperationId) (head : LayerHead Id) (checkpoint : Id)
    (outcome : LayerUpdate Id) : Prop where
  settled : ∃ u, Settled r op u outcome ∧ u.expected = head ∧ u.candidate.id = checkpoint ∧
    u.discard = false ∧ u.source = none ∧ u.resolution = none
  reads : ∃ frozen, r.checkpointIn checkpoint = .ok frozen
  live : r.verifyHead head = .ok ()

theorem Appended.later {head : LayerHead Id} {checkpoint : Id} {outcome : LayerUpdate Id}
    (happ : Appended r op head checkpoint outcome) (h : Later r r') (hs : Sound r S)
    {S' : VersionNumber → Manifest Id} (hs' : Sound r' S') : Appended r' op head checkpoint outcome := by
  obtain ⟨⟨u, hset, hu⟩, ⟨frozen, hread⟩, hlive⟩ := happ
  exact ⟨⟨u, hset.later h hs.chain hs'.chain, hu⟩, ⟨frozen, h.checkpointIn hs.chain hs'.chain _ _ hread⟩,
    h.verifyHead _ _ hlive⟩

/-- A capture that returned is recorded. -/
theorem appended_of_captureLayer (hs : Sound r S) {head : LayerHead Id} {outcome : LayerUpdate Id}
    (hok : r.captureLayer op head changes none = .ok (outcome, r')) :
    Later r r' ∧ ∃ S' checkpoint, Sound r' S' ∧ r.preparedAt head.checkpoint changes = .ok checkpoint ∧
      Appended r' op head checkpoint outcome := by
  have hperform : r.perform op (.capture head changes none) = .ok (outcome, r') := hok
  obtain ⟨hl, S', hs'⟩ := System.sound_of_transaction (transaction_of_perform hperform) hs
  obtain ⟨u, r₀, hupdate, hset, frozen, hread⟩ := settled_of_perform hs hperform
  obtain ⟨before, hbefore, h₁⟩ := except_bind_eq_ok.mp hupdate
  obtain ⟨⟨candidate, r₁⟩, hprepare, hpure⟩ := except_bind_eq_ok.mp h₁
  obtain ⟨rfl, rfl⟩ := Prod.mk.inj (Except.ok.inj hpure)
  exact ⟨hl, S', candidate.id, hs', preparedAt_eq_ok.mpr ⟨candidate, r₁, hupdate, rfl⟩,
    ⟨_, hset, rfl, rfl, rfl, rfl, rfl⟩, ⟨frozen, hread⟩, hl.verifyHead _ _ (of_perform hperform).1⟩

theorem Later.preparedAt (h : Later r r') (hs : Sound r S) {S' : VersionNumber → Manifest Id}
    (hs' : Sound r' S') {head : LayerHead Id} {checkpoint : Id}
    (hok : r.preparedAt head.checkpoint changes = .ok checkpoint) {frozen : LayerCheckpoint Id}
    (hread : r'.checkpointIn checkpoint = .ok frozen) :
    r'.preparedAt head.checkpoint changes = .ok checkpoint := by
  obtain ⟨candidate, r₀, hupdate, rfl⟩ := preparedAt_eq_ok.mp hok
  exact preparedAt_eq_ok.mpr ⟨candidate, r', h.update hs.chain hs'.chain hupdate hread, rfl⟩

/-- A capture under a recorded operation is refused like its preparation, is the recorded one, or
reuses the operation ID. -/
theorem Appended.captureLayer {head : LayerHead Id} {checkpoint : Id} {outcome : LayerUpdate Id}
    (happ : Appended r op head checkpoint outcome) (hs : Sound r S) {other : LayerHead Id}
    (hlive : r.verifyHead other = .ok ()) (changes : SparseChanges Id) :
    (∀ e, r.preparedAt other.checkpoint changes = .error e →
      r.captureLayer op other changes none = .error e) ∧
    ∀ checkpoint', r.preparedAt other.checkpoint changes = .ok checkpoint' →
      (other = head ∧ checkpoint' = checkpoint → r.captureLayer op other changes none = .ok (outcome, r)) ∧
      (¬ (other = head ∧ checkpoint' = checkpoint) →
        r.captureLayer op other changes none = .error (.operationIdReused op)) := by
  obtain ⟨⟨u, hset, rfl, rfl, hdiscard, hsource, hresolution⟩, ⟨frozen, hread⟩, hrecorded⟩ := happ
  have hverify : r.verifyHead (LayerRequest.capture other changes none).expected = .ok () := hlive
  obtain ⟨hrefused, hrest⟩ := perform_other hs hset hread hverify
  refine ⟨fun e he => hrefused e (preparedAt_eq_error.mp he), fun checkpoint' hok => ?_⟩
  obtain ⟨candidate, r₀, hupdate, rfl⟩ := preparedAt_eq_ok.mp hok
  obtain ⟨hsame, hreused⟩ := hrest _ _ hupdate
  refine ⟨fun h => hsame ?_, fun h => hreused fun hsame' => h ⟨?_, hsame'.candidate⟩⟩
  · exact ⟨congrArg LayerHead.layer h.1, congrArg LayerHead.revision h.1, h.2, hdiscard.symm,
      hsource.symm, hresolution.symm⟩
  · have hlayer : other.layer = u.expected.layer := hsame'.layer
    have hrevision : other.revision = u.expected.revision := hsame'.revision
    rw [hs.verifyHead_iff] at hlive hrecorded
    rw [hlayer, hrevision] at hlive
    exact LayerState.active.inj (Except.ok.inj (hlive.symm.trans hrecorded))

/-- A new capture is applied at the head of an active Layer only. -/
theorem active_of_captureLayer (hs : Sound r S) {head next : LayerHead Id}
    (hfresh : r.layerAttempts.get? op = none)
    (hok : r.captureLayer op head changes none = .ok (.applied (.active next), r')) :
    r.layerStateIn head.layer = .ok (.active head) ∧ next.revision = head.revision + 1 := by
  have hperform : r.perform op (.capture head changes none) = .ok (.applied (.active next), r') := hok
  obtain ⟨hverify, hopen, u, r₀, hupdate, hupdated⟩ := of_perform hperform
  obtain ⟨⟨objects, rfl⟩, _⟩ := of_update hs hupdate
  obtain ⟨hexpected, _⟩ := expected_of_update hupdate
  have hlayer : u.expected = head := hexpected
  cases of_updateIn hupdated with
  | inl h =>
      obtain ⟨_, prior, hprior, _⟩ := h
      rw [hfresh] at hprior
      cases hprior
  | inr h =>
      obtain ⟨revision, current, accepted, result, hrec⟩ := h
      have hlatest : r.latestIn u.expected.layer = .ok (revision, current) := hrec.latest
      obtain ⟨a, before, after, candidate, base, hv⟩ := of_layerOutcome hrec.outcome
      have hattempt := hv.attempt
      rw [hrec.layerAttempts, SortedMap.get?_insert, if_pos rfl] at hattempt
      obtain rfl := Option.some.inj hattempt
      have happlied := hv.update
      unfold attemptUpdate at happlied
      cases haccepted : accepted with
      | false =>
          rw [haccepted] at happlied
          obtain ⟨_, _, hpure⟩ := except_bind_eq_ok.mp happlied
          cases hpure
      | true =>
          obtain ⟨hrevision, hlive⟩ := hrec.decided.mp haccepted
          have hadvanced := hrec.advanced
          rw [if_pos haccepted, hrevision, hlayer] at hadvanced
          rw [haccepted] at happlied
          obtain ⟨_, _, hpure⟩ := except_bind_eq_ok.mp happlied
          have hstate := LayerUpdate.applied.inj (Except.ok.inj hpure)
          refine ⟨?_, ?_⟩
          · have hopen' : r.refusePublished op head.layer = .ok () := hopen
            rw [layerStateIn_of_open (of_refusePublished hs hopen' hfresh), latestEventStateIn_eq_ok]
            rw [hlayer] at hlatest hrevision
            obtain ⟨hid, _, e, he, _, hcheckpoint⟩ := verifyHead_eq_ok.mp hverify
            refine ⟨revision, current, hlatest, ?_⟩
            obtain ⟨hcurrent, _⟩ := latestIn_eq_ok.mp hlatest
            have hid' : head.repository = r.identity := hid
            have he' : (r.events head.layer).get? head.revision = some e := he
            have hcheckpoint' : e.checkpoint = head.checkpoint := hcheckpoint
            rw [hrevision, he'] at hcurrent
            obtain rfl := Option.some.inj hcurrent
            unfold Event.state
            rw [hlive, hrevision, hcheckpoint', ← hid']
            rfl
          · unfold Event.state at hstate
            cases hd : after.discarded with
            | true =>
                rw [hd] at hstate
                cases hstate
            | false =>
                rw [hd] at hstate
                have hnext := congrArg LayerHead.revision (LayerState.active.inj hstate)
                rw [← hadvanced]
                exact hnext.symm

/-! ### Answers -/

omit [LinearOrder Id] [Encoding Id] in
/-- What an answer that is accepted or stale comes from. -/
theorem of_answerAppend {tried : Option (Except (Error Id) (LayerUpdate Id × Repository Id))}
    {answer : LayerOutcome Id} (hok : r.answerAppend state tried = .ok (answer, r'))
    (hdecided : ∀ code, answer ≠ .refused code) :
    (tried = none ∧ answer = staleOrRefused state) ∨
      ∃ outcome, tried = some (.ok (outcome, r')) ∧
        (∀ r₁ state₁, answerAppend r₁ state₁ (some (.ok (outcome, r₁))) = .ok (answer, r₁)) ∧
        ∀ seq checkpoint, answer = .accepted seq checkpoint →
          ∃ head, outcome = .applied (.active head) ∧ head.revision = seq := by
  unfold answerAppend at hok
  split at hok
  case h_1 =>
      obtain ⟨rfl, _⟩ := Prod.mk.inj (Except.ok.inj hok)
      exact .inl ⟨rfl, rfl⟩
  case h_2 head r₁ =>
      obtain ⟨rfl, rfl⟩ := Prod.mk.inj (Except.ok.inj hok)
      exact .inr ⟨_, rfl, fun _ _ => rfl, fun seq checkpoint h => ⟨head, rfl, (LayerOutcome.accepted.inj h).1⟩⟩
  case h_3 state' r₁ =>
      obtain ⟨rfl, rfl⟩ := Prod.mk.inj (Except.ok.inj hok)
      refine .inr ⟨_, rfl, fun _ _ => rfl, fun seq checkpoint h => ?_⟩
      cases state' with
      | active _ => cases h
      | published _ _ _ => cases h
      | discarded _ _ _ => cases h
  case h_4 => cases hok
  case h_5 e =>
      unfold refuseAppend at hok
      split at hok
      · obtain ⟨rfl, _⟩ := Prod.mk.inj (Except.ok.inj hok)
        exact absurd rfl (hdecided _)
      · cases hok

omit [LinearOrder Id] [Encoding Id] in
theorem staleOrRefused_ne_accepted (state : LayerState Id) (seq : ℕ) (checkpoint : Id) :
    staleOrRefused state ≠ .accepted seq checkpoint := by
  intro h
  cases state with
  | active _ => cases h
  | published _ _ _ => cases h
  | discarded _ _ _ => cases h

omit [LinearOrder Id] [Encoding Id] in
/-- An answer adds nothing of its own. -/
theorem repository_of_answerAppend {tried : Option (Except (Error Id) (LayerUpdate Id × Repository Id))}
    {answer : LayerOutcome Id} (hok : r.answerAppend state tried = .ok (answer, r')) :
    r' = r ∨ ∃ outcome, tried = some (.ok (outcome, r')) := by
  unfold answerAppend at hok
  split at hok
  case h_1 => exact .inl (Prod.mk.inj (Except.ok.inj hok)).2.symm
  case h_2 => exact .inr ⟨_, by rw [(Prod.mk.inj (Except.ok.inj hok)).2]⟩
  case h_3 => exact .inr ⟨_, by rw [(Prod.mk.inj (Except.ok.inj hok)).2]⟩
  case h_4 => cases hok
  case h_5 =>
      unfold refuseAppend at hok
      split at hok
      · exact .inl (Prod.mk.inj (Except.ok.inj hok)).2.symm
      · cases hok

omit [Encoding Id] in
/-- A parent that a Layer has held has heads. -/
theorem HeadsAt.eq_nil {heads : List (LayerHead Id)} (h : HeadsAt r layer parent heads) :
    heads = [] ↔ ¬ r.Holds layer parent := by
  constructor
  · intro hnil hholds
    obtain ⟨head, hhead⟩ := hholds
    have hmem := (h.mem head).mpr hhead
    rw [hnil] at hmem
    exact List.not_mem_nil hmem
  · intro hnot
    apply List.eq_nil_iff_forall_not_mem.mpr
    intro head hmem
    exact hnot ⟨head, (h.mem head).mp hmem⟩

section recorded
variable {head : LayerHead Id} {checkpoint parent' : Id} {outcome : LayerUpdate Id} {heads : List (LayerHead Id)}

/-- The heads at another parent, or other changes, all reuse the operation ID; at the recorded
parent with the same prepared checkpoint the recorded head answers. -/
theorem Appended.tryHeads (happ : Appended r op head checkpoint outcome) (hs : Sound r S)
    (hheads : HeadsAt r layer (some parent') heads) (hholds : r.Holds layer (some parent')) {checkpoint' : Id}
    (hprepared : r.preparedAt parent' changes = .ok checkpoint') :
    (layer = head.layer ∧ parent' = head.checkpoint ∧ checkpoint' = checkpoint →
      r.tryHeads op changes heads none = some (.ok (outcome, r))) ∧
    (¬ (layer = head.layer ∧ parent' = head.checkpoint ∧ checkpoint' = checkpoint) →
      r.tryHeads op changes heads none = some (.error (.operationIdReused op))) := by
  have hcapture : ∀ other ∈ heads, (other = head ∧ checkpoint' = checkpoint →
        r.captureLayer op other changes none = .ok (outcome, r)) ∧
      (¬ (other = head ∧ checkpoint' = checkpoint) →
        r.captureLayer op other changes none = .error (.operationIdReused op)) := by
    intro other hother
    obtain ⟨hlive, _, hparent⟩ := (hheads.mem other).mp hother
    obtain rfl := Option.some.inj hparent
    exact (happ.captureLayer hs hlive changes).2 _ hprepared
  constructor
  · intro h
    obtain ⟨rfl, rfl, rfl⟩ := h
    have hmem := (hheads.mem head).mpr ⟨happ.live, rfl, rfl⟩
    exact tryHeads_of_mem heads none hmem ((hcapture head hmem).1 ⟨rfl, rfl⟩)
      (fun other hother hne => (hcapture other hother).2 (fun h => hne h.1))
  · intro h
    apply tryHeads_of_error heads none (fun hnil => hheads.eq_nil.mp hnil hholds)
    intro other hother
    obtain ⟨_, hlayer, hparent⟩ := (hheads.mem other).mp hother
    apply (hcapture other hother).2
    intro hsame
    apply h
    obtain ⟨rfl, rfl⟩ := hsame
    exact ⟨hlayer.symm, (Option.some.inj hparent).symm, rfl⟩

/-- If the changes cannot be prepared, no head accepts them. -/
theorem Appended.tryHeads_of_error (happ : Appended r op head checkpoint outcome) (hs : Sound r S)
    (hheads : HeadsAt r layer (some parent') heads) (hholds : r.Holds layer (some parent')) {e : Error Id}
    (hprepared : r.preparedAt parent' changes = .error e) :
    r.tryHeads op changes heads none = some (.error e) := by
  apply Repository.tryHeads_of_error heads none (fun hnil => hheads.eq_nil.mp hnil hholds)
  intro other hother
  obtain ⟨hlive, _, hparent⟩ := (hheads.mem other).mp hother
  obtain rfl := Option.some.inj hparent
  exact (happ.captureLayer hs hlive changes).1 _ hprepared

/-- Nothing that is tried under a recorded operation changes the repository. -/
theorem Appended.unchanged_of_tryHeads (happ : Appended r op head checkpoint outcome) (hs : Sound r S)
    (hheads : HeadsAt r layer parent heads) {outcome' : LayerUpdate Id}
    (hok : r.tryHeads op changes heads none = some (.ok (outcome', r'))) : r' = r := by
  obtain ⟨other, hother, hcaptured⟩ := of_tryHeads heads none hok (by simp)
  obtain ⟨hlive, _, _⟩ := (hheads.mem other).mp hother
  obtain ⟨hrefused, hrest⟩ := happ.captureLayer hs hlive changes
  cases hprepared : r.preparedAt other.checkpoint changes with
  | error e =>
      rw [hrefused e hprepared] at hcaptured
      cases hcaptured
  | ok checkpoint' =>
      obtain ⟨hsame, hreused⟩ := hrest checkpoint' hprepared
      by_cases h : other = head ∧ checkpoint' = checkpoint
      · rw [hsame h] at hcaptured
        exact (Prod.mk.inj (Except.ok.inj hcaptured)).2.symm
      · rw [hreused h] at hcaptured
        cases hcaptured

end recorded

end Repository

/-- The part of a node that appends use: its repository and the uploaded changes objects. -/
structure LayerNode (Id : Type) [LinearOrder Id] where
  system : System Id
  changes : ChangesTable Id

namespace LayerNode

open Repository

/-- A new node. -/
def initial (identity : Id) : LayerNode Id := ⟨System.initial identity, SortedMap.empty⟩

abbrev repository (n : LayerNode Id) : Repository Id := n.system.repository

/-- One `LayerAppend`. -/
def append (n : LayerNode Id) (op : OperationId) (layer : LayerId) (parent : Option Id) (changes : Id) :
    Except (AppendError Id) (LayerOutcome Id × Repository Id) :=
  n.repository.appendCheckpoint n.changes op layer parent changes

/-- Stages a changes object.  One that is there stays. -/
def storeChanges (n : LayerNode Id) (id : Id) (changes : SparseChanges Id) : LayerNode Id :=
  if (n.changes.get? id).isSome then n else { n with changes := n.changes.insert id changes }

/-- One step of any client of the node. -/
inductive Step : LayerNode Id → LayerNode Id → Prop
  | native {n s} : System.Step n.system s → Step n { n with system := s }
  | upload {n} (id changes) : Step n (n.storeChanges id changes)

abbrev Run (n n' : LayerNode Id) : Prop := Relation.ReflTransGen Step n n'

/-- A state that some run from a new node ends in. -/
def Reachable (n : LayerNode Id) : Prop := ∃ identity, Run (initial identity) n

theorem Step.later {n n' : LayerNode Id} (h : Step n n') (hs : n.system.Sound) :
    Later n.repository n'.repository ∧ n'.system.Sound ∧
      ∀ id changes, n.changes.get? id = some changes → n'.changes.get? id = some changes := by
  cases h with
  | native hstep =>
      obtain ⟨hl, hs'⟩ := hstep.sound hs
      exact ⟨hl, hs', fun _ _ h => h⟩
  | upload id changes =>
      unfold storeChanges
      by_cases h : (n.changes.get? id).isSome = true
      · rw [if_pos h]
        exact ⟨.refl _, hs, fun _ _ h => h⟩
      · rw [if_neg h]
        refine ⟨.refl _, hs, fun id' changes' hid => ?_⟩
        have hne : id ≠ id' := by
          intro he
          rw [he, hid] at h
          exact h rfl
        show (n.changes.insert id changes).get? id' = some changes'
        rw [SortedMap.get?_insert, if_neg hne]
        exact hid

theorem Run.later {n n' : LayerNode Id} (h : Run n n') (hs : n.system.Sound) :
    Later n.repository n'.repository ∧ n'.system.Sound ∧
      ∀ id changes, n.changes.get? id = some changes → n'.changes.get? id = some changes := by
  induction h with
  | refl => exact ⟨.refl _, hs, fun _ _ h => h⟩
  | tail _ hstep ih =>
      obtain ⟨hl, hs₁, hkept⟩ := ih
      obtain ⟨hl', hs₂, hkept'⟩ := hstep.later hs₁
      exact ⟨hl.trans hl', hs₂, fun id changes h => hkept' id changes (hkept id changes h)⟩

theorem Reachable.sound {n : LayerNode Id} (h : Reachable n) : n.system.Sound := by
  obtain ⟨identity, h⟩ := h
  exact (h.later (System.initial_sound identity)).2.1

/-- What a node answers under an operation ID that an append of the changes to the parent was
recorded for: the same append is answered alike; another one of a parent that the Layer has held is
refused as reused if its changes prepare, and as its preparation is otherwise; one of any other
parent is answered with the Layer's state; and nothing is ever added. -/
structure Replays (n : LayerNode Id) (op : OperationId) (layer : LayerId) (parent : Option Id)
    (changes checkpoint : Id) (answer : LayerOutcome Id) : Prop where
  again : n.append op layer parent changes = .ok (answer, n.repository)
  prepared : ∀ layer' parent' changes' delta checkpoint', isReviewLayer layer' = false →
    n.changes.get? changes' = some delta → n.repository.Holds layer' (some parent') →
    n.repository.preparedAt parent' delta = .ok checkpoint' →
      (layer' = layer ∧ some parent' = parent ∧ checkpoint' = checkpoint →
        n.append op layer' (some parent') changes' = .ok (answer, n.repository)) ∧
      (¬ (layer' = layer ∧ some parent' = parent ∧ checkpoint' = checkpoint) →
        n.append op layer' (some parent') changes' = .ok (.refused "operation_id_reused", n.repository))
  unprepared : ∀ layer' parent' changes' delta e, isReviewLayer layer' = false →
    n.changes.get? changes' = some delta → n.repository.Holds layer' (some parent') →
    n.repository.preparedAt parent' delta = .error e →
      n.append op layer' (some parent') changes' = n.repository.refuseAppend e
  unheld : ∀ layer' parent' changes' delta state, isReviewLayer layer' = false →
    n.changes.get? changes' = some delta → n.repository.layerStateIn layer' = .ok state →
    ¬ n.repository.Holds layer' parent' →
      n.append op layer' parent' changes' = .ok (staleOrRefused state, n.repository)
  unchanged : ∀ layer' parent' changes' answer' r',
    n.append op layer' parent' changes' = .ok (answer', r') → r' = n.repository

variable {n : LayerNode Id} {op : OperationId} {layer : LayerId} {parent : Option Id} {changes : Id}
  {answer : LayerOutcome Id}

/-- What an append went through. -/
theorem of_append {r' : Repository Id} (hok : n.append op layer parent changes = .ok (answer, r')) :
    (r' = n.repository ∧ ∃ code, answer = .refused code) ∨
      isReviewLayer layer = false ∧ ∃ delta state, n.changes.get? changes = some delta ∧
        n.repository.layerStateIn layer = .ok state := by
  unfold append appendCheckpoint at hok
  by_cases hreview : isReviewLayer layer = true
  · rw [if_pos hreview] at hok
    obtain ⟨rfl, rfl⟩ := Prod.mk.inj (Except.ok.inj hok)
    exact .inl ⟨rfl, _, rfl⟩
  · rw [if_neg hreview] at hok
    unfold Repository.append at hok
    cases hdelta : n.changes.get? changes with
    | none =>
        rw [hdelta] at hok
        cases hok
    | some delta =>
        rw [hdelta] at hok
        cases hstate : n.repository.layerStateIn layer with
        | ok state => exact .inr ⟨Bool.eq_false_iff.mpr hreview, delta, state, rfl, rfl⟩
        | error e =>
            rw [hstate] at hok
            cases e with
            | invalidInput _ =>
                obtain ⟨rfl, rfl⟩ := Prod.mk.inj (Except.ok.inj hok)
                exact .inl ⟨rfl, _, rfl⟩
            | _ => cases hok

/-- A decided append is what the heads at the parent answer. -/
theorem append_eq {S : VersionNumber → Manifest Id} (hs : Repository.Sound n.repository S)
    {delta : SparseChanges Id} {state : LayerState Id} (hreview : isReviewLayer layer = false)
    (hdelta : n.changes.get? changes = some delta) (hstate : n.repository.layerStateIn layer = .ok state) :
    ∃ heads, HeadsAt n.repository layer parent heads ∧ n.append op layer parent changes =
      n.repository.answerAppend state (n.repository.tryHeads op delta heads none) := by
  obtain ⟨heads, hheads, happend⟩ := hs.append_eq hdelta hstate
  refine ⟨heads, hheads, ?_⟩
  unfold append appendCheckpoint
  rw [if_neg (by rw [hreview]; exact Bool.false_ne_true)]
  exact happend

theorem replays_of_appended {S : VersionNumber → Manifest Id} (hs : Repository.Sound n.repository S)
    {delta : SparseChanges Id} {head : LayerHead Id} {checkpoint : Id} {outcome : LayerUpdate Id}
    (happ : Appended n.repository op head checkpoint outcome) (hreview : isReviewLayer head.layer = false)
    (hdelta : n.changes.get? changes = some delta)
    (hprepared : n.repository.preparedAt head.checkpoint delta = .ok checkpoint)
    (hanswer : ∀ r state, Repository.answerAppend r state (some (.ok (outcome, r))) = .ok (answer, r)) :
    n.Replays op head.layer (some head.checkpoint) changes checkpoint answer := by
  have hholds : n.repository.Holds head.layer (some head.checkpoint) := ⟨head, happ.live, rfl, rfl⟩
  have hdecided : ∀ layer' parent' changes' delta' checkpoint', isReviewLayer layer' = false →
      n.changes.get? changes' = some delta' → n.repository.Holds layer' (some parent') →
      n.repository.preparedAt parent' delta' = .ok checkpoint' →
        (layer' = head.layer ∧ some parent' = some head.checkpoint ∧ checkpoint' = checkpoint →
          n.append op layer' (some parent') changes' = .ok (answer, n.repository)) ∧
        (¬ (layer' = head.layer ∧ some parent' = some head.checkpoint ∧ checkpoint' = checkpoint) →
          n.append op layer' (some parent') changes' =
            .ok (.refused "operation_id_reused", n.repository)) := by
    intro layer' parent' changes' delta' checkpoint' hreview' hdelta' hholds' hprepared'
    obtain ⟨state, hstate⟩ := hholds'.exists_layerStateIn hs
    obtain ⟨heads, hheads, happend⟩ := append_eq hs hreview' hdelta' hstate
    obtain ⟨hsame, hreused⟩ := happ.tryHeads hs hheads hholds' hprepared'
    rw [happend, Option.some.injEq]
    refine ⟨fun h => ?_, fun h => ?_⟩
    · rw [hsame h]
      exact hanswer _ _
    · rw [hreused h]
      rfl
  constructor
  case again => exact (hdecided _ _ _ _ _ hreview hdelta hholds hprepared).1 ⟨rfl, rfl, rfl⟩
  case prepared => exact hdecided
  case unprepared =>
    intro layer' parent' changes' delta' e hreview' hdelta' hholds' hprepared'
    obtain ⟨state, hstate⟩ := hholds'.exists_layerStateIn hs
    obtain ⟨heads, hheads, happend⟩ := append_eq hs hreview' hdelta' hstate
    rw [happend, happ.tryHeads_of_error hs hheads hholds' hprepared']
    rfl
  case unheld =>
    intro layer' parent' changes' delta' state hreview' hdelta' hstate hnot
    obtain ⟨heads, hheads, happend⟩ := append_eq hs hreview' hdelta' hstate
    rw [happend, hheads.eq_nil.mpr hnot]
    rfl
  case unchanged =>
    intro layer' parent' changes' answer' r' hok
    cases of_append hok with
    | inl h => exact h.1
    | inr h =>
        obtain ⟨hreview', delta', state, hdelta', hstate⟩ := h
        obtain ⟨heads, hheads, happend⟩ := append_eq hs hreview' hdelta' hstate
        rw [happend] at hok
        cases repository_of_answerAppend hok with
        | inl h => exact h
        | inr h =>
            obtain ⟨outcome', htried⟩ := h
            exact happ.unchanged_of_tryHeads hs hheads htried

/-! ### Runs -/

/-- An append that was accepted, or answered stale against a parent the Layer has held, replays in
every later state.  A new append is accepted only at the head of an active Layer. -/
theorem Reachable.append_replays (h : Reachable n) {r' : Repository Id}
    (hok : n.append op layer parent changes = .ok (answer, r')) :
    ((∃ seq checkpoint, answer = .accepted seq checkpoint) ∨
        (∃ head, answer = .stale head) ∧ n.repository.Holds layer parent →
      ∃ checkpoint, ∀ n', Run ⟨⟨r', n.system.plans⟩, n.changes⟩ n' →
        n'.Replays op layer parent changes checkpoint answer) ∧
    ∀ seq checkpoint, answer = .accepted seq checkpoint → n.repository.layerAttempts.get? op = none →
      ∃ head, n.repository.layerStateIn layer = .ok (.active head) ∧ some head.checkpoint = parent ∧
        seq = head.revision + 1 := by
  obtain ⟨S, hs⟩ := h.sound.repository
  cases of_append hok with
  | inl hrefused =>
      obtain ⟨_, code, rfl⟩ := hrefused
      refine ⟨fun hanswer => ?_, fun seq checkpoint hanswer => by cases hanswer⟩
      cases hanswer with
      | inl h =>
          obtain ⟨_, _, h⟩ := h
          cases h
      | inr h =>
          obtain ⟨⟨_, h⟩, _⟩ := h
          cases h
  | inr hdecided =>
      obtain ⟨hreview, delta, state, hdelta, hstate⟩ := hdecided
      obtain ⟨heads, hheads, happend⟩ := append_eq hs hreview hdelta hstate
      rw [happend] at hok
      refine ⟨fun hanswer => ?_, fun seq checkpoint hanswer hfresh => ?_⟩
      · have hnot : ∀ code, answer ≠ .refused code := by
          intro code he
          rw [he] at hanswer
          cases hanswer with
          | inl h =>
              obtain ⟨_, _, h⟩ := h
              cases h
          | inr h =>
              obtain ⟨⟨_, h⟩, _⟩ := h
              cases h
        cases of_answerAppend hok hnot with
        | inl hnone =>
            obtain ⟨hnone, rfl⟩ := hnone
            have hempty := hheads.eq_nil.mp (eq_nil_of_tryHeads heads none hnone).1
            cases hanswer with
            | inl h =>
                obtain ⟨seq, checkpoint, h⟩ := h
                exact absurd h (staleOrRefused_ne_accepted state seq checkpoint)
            | inr h => exact absurd h.2 hempty
        | inr htried =>
            obtain ⟨outcome, htried, hsame, _⟩ := htried
            obtain ⟨head, hmem, hcaptured⟩ := of_tryHeads heads none htried (by simp)
            obtain ⟨_, hlayer, hparent⟩ := (hheads.mem head).mp hmem
            obtain ⟨hl, S', checkpoint, hs', hprepared, happ⟩ := appended_of_captureLayer hs hcaptured
            subst hlayer hparent
            refine ⟨checkpoint, fun n' hrun => ?_⟩
            have hstep : System.Step n.system ⟨r', n.system.plans⟩ := .transact (.captureLayer hcaptured)
            obtain ⟨hl', hsystem, hkept⟩ := hrun.later (hstep.sound h.sound).2
            obtain ⟨S'', hs''⟩ := hsystem.repository
            have happ' := happ.later hl' hs' hs''
            obtain ⟨frozen, hread⟩ := happ'.reads
            exact replays_of_appended hs'' happ' hreview (hkept _ _ hdelta)
              ((hl.trans hl').preparedAt hs hs'' hprepared hread) hsame
      · have hnot : ∀ code, answer ≠ .refused code := by
          intro code he
          rw [he] at hanswer
          cases hanswer
        cases of_answerAppend hok hnot with
        | inl hnone =>
            obtain ⟨_, rfl⟩ := hnone
            exact absurd hanswer (staleOrRefused_ne_accepted state seq checkpoint)
        | inr htried =>
            obtain ⟨outcome, htried, _, happlied⟩ := htried
            obtain ⟨next, rfl, rfl⟩ := happlied seq checkpoint hanswer
            obtain ⟨head, hmem, hcaptured⟩ := of_tryHeads heads none htried (by simp)
            obtain ⟨_, rfl, hparent⟩ := (hheads.mem head).mp hmem
            obtain ⟨hactive, hnext⟩ := active_of_captureLayer hs hfresh hcaptured
            exact ⟨head, hactive, hparent, hnext⟩

/-- A run of the repository is one of the node. -/
theorem run_of_system {s s' : System Id} (h : System.Run s s') (table : ChangesTable Id) :
    Run ⟨s, table⟩ ⟨s', table⟩ := by
  induction h with
  | refl => exact .refl
  | tail _ hstep ih => exact ih.tail (.native hstep)

/-- A new node with a Layer accepts an append to it. -/
theorem exists_accepted (identity : Id) (layer : LayerId) (hreview : isReviewLayer layer = false)
    (op : OperationId) (changes : Id) : ∃ (n : LayerNode Id) (parent : Id) (next : LayerHead Id)
      (r' : Repository Id), Reachable n ∧ n.append op layer (some parent) changes =
        .ok (.accepted next.revision next.checkpoint, r') ∧
      n.changes.get? changes = some SparseChanges.empty ∧ r'.layerStateIn layer = .ok (.active next) ∧
      System.Reachable ⟨r', n.system.plans⟩ := by
  obtain ⟨r, head, before, next, r', ⟨identity', hrun⟩, hactive, rfl, hfirst, hbefore, _, hcaptured⟩ :=
    System.exists_first_capture identity layer op
  have hreach : System.Reachable (⟨r, []⟩ : System Id) := ⟨identity', hrun⟩
  obtain ⟨S, hs⟩ := hreach.sound.repository
  have hupload : Run (⟨⟨r, []⟩, SortedMap.empty⟩ : LayerNode Id)
      ⟨⟨r, []⟩, SortedMap.empty.insert changes SparseChanges.empty⟩ :=
    .single (.upload changes SparseChanges.empty)
  obtain ⟨n, hn⟩ : ∃ n : LayerNode Id, n = ⟨⟨r, []⟩, SortedMap.empty.insert changes SparseChanges.empty⟩ :=
    ⟨_, rfl⟩
  have hrepository : n.repository = r := by rw [hn]
  have hdelta : n.changes.get? changes = some SparseChanges.empty := by
    rw [hn, SortedMap.get?_insert, if_pos rfl]
  refine ⟨n, head.checkpoint, next, r', ⟨identity', ?_⟩, ?_, hdelta, hcaptured.named ▸ hcaptured.active, ?_⟩
  · rw [hn]
    exact (run_of_system hrun _).trans hupload
  · rw [← hrepository] at hs hactive
    obtain ⟨heads, hheads, happend⟩ : ∃ heads, HeadsAt n.repository head.layer (some head.checkpoint) heads ∧
        n.append op head.layer (some head.checkpoint) changes = n.repository.answerAppend (.active head)
          (n.repository.tryHeads op SparseChanges.empty heads none) :=
      append_eq hs hreview hdelta hactive
    obtain ⟨⟨e, hlatest, _⟩, _⟩ := hs.live_of_active hactive
    obtain ⟨_, hmax⟩ := latestIn_eq_ok.mp hlatest
    obtain ⟨_, hverify⟩ := hs.verifyHead hactive
    -- the Layer has had no other head
    have honly : ∀ other ∈ heads, other = head := by
      intro other hother
      obtain ⟨hlive, hlayer, _⟩ := (hheads.mem other).mp hother
      obtain ⟨_, _, e', he', _⟩ := verifyHead_eq_ok.mp hlive
      rw [hlayer] at he'
      have hle := hmax _ _ he'
      have hrevision : other.revision = head.revision := by omega
      rw [hs.verifyHead_iff] at hlive hverify
      rw [hlayer, hrevision] at hlive
      exact LayerState.active.inj (Except.ok.inj (hlive.symm.trans hverify))
    have hcapture : n.repository.captureLayer op head SparseChanges.empty none =
        .ok (.applied (.active next), r') := by
      rw [hrepository]
      exact hcaptured.captured
    rw [happend, tryHeads_of_mem heads none ((hheads.mem head).mpr ⟨hverify, rfl, rfl⟩) hcapture
      (fun other hother hne => absurd (honly other hother) hne)]
    rfl
  · rw [hn]
    exact hreach.run (.single (.transact (.captureLayer hcaptured.captured)))

/-- A numbered node with one accepted append: it replays. -/
theorem append_replays_accepted : ∃ (n : LayerNode ℕ) (parent : ℕ) (seq checkpoint : ℕ) (r' : Repository ℕ),
    n.append ⟨[49]⟩ ⟨[97]⟩ (some parent) 0 = .ok (.accepted seq checkpoint, r') ∧
      ∃ prepared, ∀ n', Run ⟨⟨r', n.system.plans⟩, n.changes⟩ n' →
        n'.Replays ⟨[49]⟩ ⟨[97]⟩ (some parent) 0 prepared (.accepted seq checkpoint) := by
  obtain ⟨n, parent, next, r', hreach, hok, _⟩ :=
    exists_accepted (0 : ℕ) ⟨[97]⟩ (by decide +kernel) ⟨[49]⟩ 0
  exact ⟨n, parent, _, _, r', hok, (hreach.append_replays hok).1 (.inl ⟨_, _, rfl⟩)⟩

/-- The same operation ID with another parent is not always refused as reused: a parent that the
Layer has never held is answered as stale. -/
theorem other_parent_is_stale : ∃ (n : LayerNode ℕ) (parent : ℕ) (seq checkpoint : ℕ) (r' : Repository ℕ),
    Reachable n ∧ n.append ⟨[49]⟩ ⟨[97]⟩ (some parent) 0 = .ok (.accepted seq checkpoint, r') ∧
      ∃ head, LayerNode.append ⟨⟨r', n.system.plans⟩, n.changes⟩ ⟨[49]⟩ ⟨[97]⟩ none 0 = .ok (.stale head, r') := by
  obtain ⟨n, parent, next, r', hreach, hok, hdelta, hactive, hreach'⟩ :=
    exists_accepted (0 : ℕ) ⟨[97]⟩ (by decide +kernel) ⟨[49]⟩ 0
  obtain ⟨n', hn'⟩ : ∃ n' : LayerNode ℕ, n' = ⟨⟨r', n.system.plans⟩, n.changes⟩ := ⟨_, rfl⟩
  have hrepository : n'.repository = r' := by rw [hn']
  have hdelta' : n'.changes.get? 0 = some SparseChanges.empty := by
    rw [hn']
    exact hdelta
  obtain ⟨S, hs⟩ := hreach'.sound.repository
  have hs' : Repository.Sound n'.repository S := by
    rw [hrepository]
    exact hs
  have hactive' : n'.repository.layerStateIn ⟨[97]⟩ = .ok (.active next) := by
    rw [hrepository]
    exact hactive
  obtain ⟨heads, hheads, happend⟩ : ∃ heads, HeadsAt n'.repository ⟨[97]⟩ none heads ∧
      n'.append ⟨[49]⟩ ⟨[97]⟩ none 0 = n'.repository.answerAppend (.active next)
        (n'.repository.tryHeads ⟨[49]⟩ SparseChanges.empty heads none) :=
    append_eq hs' (by decide +kernel) hdelta' hactive'
  have hnot : ¬ n'.repository.Holds ⟨[97]⟩ none := by
    intro h
    obtain ⟨head, _, _, hparent⟩ := h
    cases hparent
  refine ⟨n, parent, _, _, r', hreach, hok, next.checkpoint, ?_⟩
  rw [← hn', happend, hheads.eq_nil.mpr hnot, ← hrepository]
  rfl

end LayerNode

end Javelin
