import Javelin.LayerSteps

/-! # Committing a publication

`Planned r call plan` says that a plan in flight was prepared in some earlier sound state.  The
write transaction carries it out only if nothing it was decided from has moved, so what the plan says
still holds (`Fits`).  What a commit writes is `Committed`: the receipt and its row, and for a success
the next version with its attempt, chunks, changeset and blame.

The state after is sound (`commitIn_sound`); in particular the receipt reads back. -/

namespace Javelin

open KeyedList

variable {Id : Type} [LinearOrder Id] [Encoding Id]

/-- The row of a publication. -/
def PublishCall.row (call : PublishCall Id) (plan : Plan Id) (outcome : PublishOutcome Id) (blob : Id) :
    PublicationRow Id :=
  { layer := call.expected.layer
    expected := call.expected.revision
    checkpoint := call.expected.checkpoint
    against := plan.against.number
    observed := plan.actual.revision
    observedPublication := plan.actual.observedPublication
    attribution := call.attribution
    outcome := outcome.tag
    result := outcome.result
    worldOperation := outcome.result.map (fun _ => call.operation)
    receipt := blob }

/-- The receipt of a publication. -/
def PublishCall.receipt (call : PublishCall Id) (plan : Plan Id) (outcome : PublishOutcome Id) :
    PublicationReceipt Id :=
  ⟨call.operation, call.expected, call.attribution, plan.against, plan.warnings, outcome⟩

namespace Repository
variable {r r' : Repository Id} {S S' : VersionNumber → Manifest Id} {call : PublishCall Id}
  {plan : Plan Id} {guard : Guard Id} {outcome : PublishOutcome Id}

/-! ### Chunks -/

theorem of_insertChunks {objects objects' : Objects Id} {chunks : List (Id × Chunk Id)}
    (hok : insertChunks objects chunks = .ok objects') :
    objects.Extends objects' ∧ (objects.Honest → objects'.Honest) ∧
      objects.NoCheckpoints objects' ∧ ∀ e ∈ chunks, objects'.Stored e.2 := by
  unfold insertChunks at hok
  induction chunks generalizing objects with
  | nil =>
      obtain rfl := Except.ok.inj hok
      exact ⟨.refl _, fun h => h, fun _ _ h => h, by simp⟩
  | cons e chunks ih =>
      rw [List.foldlM_cons] at hok
      obtain ⟨objects₁, hfirst, hrest⟩ := except_bind_eq_ok.mp hok
      obtain ⟨⟨id, objects₂⟩, hinsert, hpure⟩ := except_bind_eq_ok.mp hfirst
      obtain rfl := Except.ok.inj hpure
      obtain ⟨hext, hhonest, hkept, hstored⟩ := ih hrest
      refine ⟨(Objects.extends_of_insert hinsert).trans hext, fun h => hhonest (h.of_insert hinsert),
        (Objects.noCheckpoints_of_insert hinsert (by simp [Object.kind])).trans hkept, ?_⟩
      rw [List.forall_mem_cons]
      refine ⟨hext.stored ?_, hstored⟩
      have hread : objects₂.read id .tree = .ok (.tree e.2) := Objects.read_of_insert hinsert
      obtain ⟨hl, hid, _⟩ := Objects.read_eq_ok.mp hread
      obtain rfl : e.2.id = id := (ObjectHash.objectId_tree e.2).symm.trans hid
      exact Objects.stored_iff.mpr hl

/-- The chunks of a composition read back once they are stored. -/
theorem ReadableWith.readable {objects objects' : Objects Id} {chunks : List (Id × Chunk Id)}
    {c : Chunk Id} (h : ReadableWith objects chunks c) (hext : objects.Extends objects')
    (hstored : ∀ e ∈ chunks, objects'.Stored e.2) : objects'.Readable c := by
  refine ⟨h.1, h.2.imp_right (fun hor => ?_)⟩
  rcases hor with hs | hm
  · exact hext.stored hs
  · exact hstored _ hm

/-! ### What a commit writes -/

/-- What a success writes to the World. -/
structure PublishedAs (r : Repository Id) (call : PublishCall Id) (against : WorldVersion Id)
    (composition : Composition Id) (version : WorldVersion Id) (r' : Repository Id) : Prop where
  room : against.number < MAX_VERSION
  version_eq : version = against.next call.operation composition.changes composition.tree
  versions : r'.versions = r.versions ++ [version]
  changes : r'.changes = r.changes.insert (against.number + 1) composition.changes.entries
  attempts : r'.attempts =
    r.attempts.insert call.operation ⟨against.number, none, true, against.number + 1⟩
  stored : ∀ e ∈ composition.chunks, r'.objects.Stored e.2
  layerPaths : r'.layerPaths = r.layerPaths.erase call.expected.layer
  blame : ∃ rows, composition.changes.entries.keys.foldlM (blameRow (r.trackedIn call.expected.layer))
    SortedMap.empty = (.ok rows : Except (Error Id) _) ∧ r'.blame = r.blame.insert (against.number + 1) rows

/-- The tables that a publication leaves alone. -/
structure PublicationOnly (r r' : Repository Id) : Prop where
  identity : r'.identity = r.identity
  objects : r.objects.Extends r'.objects
  honest : r.objects.Honest → r'.objects.Honest
  checkpoints : r.objects.NoCheckpoints r'.objects
  layerHeads : r'.layerHeads = r.layerHeads
  layerAttempts : r'.layerAttempts = r.layerAttempts
  stackRows : r'.stackRows = r.stackRows

theorem PublicationOnly.trans {r'' : Repository Id} (h : PublicationOnly r r')
    (h' : PublicationOnly r' r'') : PublicationOnly r r'' :=
  ⟨h'.identity.trans h.identity, h.objects.trans h'.objects, fun hh => h'.honest (h.honest hh),
    h.checkpoints.trans h'.checkpoints, h'.layerHeads.trans h.layerHeads, h'.layerAttempts.trans h.layerAttempts,
    h'.stackRows.trans h.stackRows⟩

theorem of_publishVersion {against : WorldVersion Id} {composition : Composition Id}
    {version : WorldVersion Id} (hok : r.publishVersion call against composition = .ok (version, r')) :
    PublicationOnly r r' ∧ r'.publications = r.publications ∧
      PublishedAs r call against composition version r' := by
  unfold publishVersion at hok
  obtain ⟨number, hnumber, h₁⟩ := except_bind_eq_ok.mp hok
  obtain ⟨hlt, rfl⟩ := nextNumber_eq_ok.mp hnumber
  obtain ⟨objects, hchunks, h₂⟩ := except_bind_eq_ok.mp h₁
  obtain ⟨⟨version', r₁⟩, happend, h₃⟩ := except_bind_eq_ok.mp h₂
  obtain ⟨⟨_, rfl⟩, rfl⟩ := appendVersionIn_eq_ok.mp happend
  obtain ⟨r₂, hblame, h₄⟩ := except_bind_eq_ok.mp h₃
  obtain ⟨rows, hrows, hpure⟩ := except_bind_eq_ok.mp hblame
  obtain rfl := Except.ok.inj hpure
  obtain ⟨rfl, rfl⟩ := Prod.mk.inj (Except.ok.inj h₄)
  obtain ⟨hext, hhonest, hkept, hstored⟩ := of_insertChunks hchunks
  exact ⟨⟨rfl, hext, hhonest, hkept, rfl, rfl, rfl⟩, rfl, hlt, rfl, rfl, rfl, rfl, hstored, rfl, rows,
    hrows, rfl⟩

/-- What a commit wrote to the World: nothing, or the version of a success. -/
inductive World (r : Repository Id) (call : PublishCall Id) (plan : Plan Id) (r' : Repository Id) :
    PublishOutcome Id → Prop
  | layerStale : plan.composed = none → r'.versions = r.versions → r'.changes = r.changes →
      r'.attempts = r.attempts → r'.layerPaths = r.layerPaths → r'.blame = r.blame →
      World r call plan r' (.layerStale plan.actual)
  | conflict (paths : List RepoPath) : plan.composed = some (.inl paths) → r'.versions = r.versions →
      r'.changes = r.changes → r'.attempts = r.attempts → r'.layerPaths = r.layerPaths →
      r'.blame = r.blame → World r call plan r' (.conflict paths)
  | published (composition : Composition Id) (version : WorldVersion Id) :
      plan.composed = some (.inr composition) →
      PublishedAs r call plan.against composition version r' → World r call plan r' (.published version)

/-- What a commit wrote. -/
structure Committed (r : Repository Id) (call : PublishCall Id) (plan : Plan Id)
    (outcome : PublishOutcome Id) (r' : Repository Id) : Prop where
  only : PublicationOnly r r'
  publications : ∃ blob, r'.publications = r.publications.insert call.operation (call.row plan outcome blob) ∧
    r'.objects.readBlob blob = .ok (receiptBytes (call.receipt plan outcome))
  world : World r call plan r' outcome

/-- A commit writes the receipt and, for a success, the version. -/
theorem of_apply (happly : ∃ r₁ receipt, r.applyPlan call plan guard = .ok (outcome, r₁) ∧
    r₁.storeReceipt call plan outcome = .ok (receipt, r')) : Committed r call plan outcome r' := by
  obtain ⟨r₁, receipt, happly, hstore⟩ := happly
  unfold storeReceipt at hstore
  obtain ⟨⟨blob, objects⟩, hinsert, hpure⟩ := except_bind_eq_ok.mp hstore
  obtain ⟨_, rfl⟩ := Prod.mk.inj (Except.ok.inj hpure)
  have hext := Objects.extends_of_insert hinsert
  have hlast : PublicationOnly r₁ { r₁ with
      objects := objects
      publications := r₁.publications.insert call.operation (call.row plan outcome blob) } :=
    ⟨rfl, hext, fun h => h.of_insert hinsert,
      Objects.noCheckpoints_of_insert hinsert (by simp [Object.kind]), rfl, rfl, rfl⟩
  have hsame : PublicationOnly r r := ⟨rfl, .refl _, fun h => h, fun _ _ h => h, rfl, rfl, rfl⟩
  unfold applyPlan at happly
  cases hplan : plan.composed with
  | none =>
      rw [hplan] at happly
      obtain ⟨rfl, rfl⟩ := Prod.mk.inj (Except.ok.inj happly)
      exact ⟨hsame.trans hlast, ⟨blob, rfl, Objects.readBlob_of_insert hinsert⟩,
        .layerStale hplan rfl rfl rfl rfl rfl⟩
  | some composed =>
      rw [hplan] at happly
      cases composed with
      | inl paths =>
          obtain ⟨rfl, rfl⟩ := Prod.mk.inj (Except.ok.inj happly)
          exact ⟨hsame.trans hlast, ⟨blob, rfl, Objects.readBlob_of_insert hinsert⟩,
            .conflict paths hplan rfl rfl rfl rfl rfl⟩
      | inr composition =>
          obtain ⟨_, _, h₁⟩ := except_bind_eq_ok.mp happly
          obtain ⟨⟨version, r₂⟩, hpublish, h₂⟩ := except_bind_eq_ok.mp h₁
          obtain ⟨rfl, rfl⟩ := Prod.mk.inj (Except.ok.inj h₂)
          obtain ⟨honly, hpubs, hp⟩ := of_publishVersion hpublish
          refine ⟨honly.trans hlast, ⟨blob, ?_, Objects.readBlob_of_insert hinsert⟩,
            .published composition version hplan ?_⟩
          · rw [← hpubs]
            rfl
          · exact ⟨hp.room, hp.version_eq, hp.versions, hp.changes, hp.attempts,
              fun e he => hext.stored (hp.stored e he), hp.layerPaths, hp.blame⟩

/-- What the transaction checks before it carries a plan out. -/
theorem current_eq_ok (hc : Chain r S) : r.current call plan = .ok true ↔
    r.publications.get? call.operation = none ∧ r.attempts.get? call.operation = none ∧
      r.versions.getLast? = some plan.against ∧
      r.layerStateIn call.expected.layer = .ok plan.actual := by
  have hexists : r.operationExists call.operation = true ↔
      r.publications.get? call.operation ≠ none := Option.isSome_iff_ne_none
  unfold current
  by_cases hused : r.operationExists call.operation = true ∨ r.attempts.get? call.operation ≠ none
  · rw [if_pos hused]
    constructor
    · intro h
      cases h
    · rintro ⟨hpub, hatt, _⟩
      rcases hused with hu | hu
      · exact absurd hpub (hexists.mp hu)
      · exact absurd hatt hu
  · rw [if_neg hused, except_bind_eq_ok]
    rw [not_or, hexists, not_not, not_not] at hused
    simp only [hc.headIn_eq_ok, hused, true_and]
    constructor
    · rintro ⟨head, hhead, hrest⟩
      by_cases hne : head = plan.against
      · subst hne
        rw [if_neg (not_not.mpr rfl), except_bind_eq_ok] at hrest
        obtain ⟨actual, hactual, hpure⟩ := hrest
        rw [of_decide_eq_true (Except.ok.inj hpure)] at hactual
        exact ⟨hhead, hactual⟩
      · rw [if_pos hne] at hrest
        cases hrest
    · rintro ⟨hhead, hactual⟩
      refine ⟨_, hhead, ?_⟩
      rw [if_neg (not_not.mpr rfl), except_bind_of_ok hactual]
      exact congrArg Except.ok (decide_eq_true rfl)

/-- A commit that is carried out was still up to date. -/
theorem of_commitIn {receipt : PublicationReceipt Id}
    (hok : r.commitIn call plan guard = .ok (some (receipt, r'))) :
    r.current call plan = .ok true ∧
      ∃ outcome, Committed r call plan outcome r' ∧ receipt = call.receipt plan outcome ∧
        ∀ composition, plan.composed = some (.inr composition) →
          guard plan.against composition.changes = .ok () := by
  unfold commitIn at hok
  obtain ⟨now, hcurrent, h₁⟩ := except_bind_eq_ok.mp hok
  cases now with
  | false => cases h₁
  | true =>
      rw [if_pos rfl] at h₁
      obtain ⟨⟨outcome, r₁⟩, happly, h₂⟩ := except_bind_eq_ok.mp h₁
      obtain ⟨⟨receipt', r₂⟩, hstore, h₃⟩ := except_bind_eq_ok.mp h₂
      obtain ⟨rfl, rfl⟩ := Prod.mk.inj (Option.some.inj (Except.ok.inj h₃))
      refine ⟨hcurrent, outcome, of_apply ⟨r₁, receipt', happly, hstore⟩, ?_, ?_⟩
      · unfold storeReceipt at hstore
        obtain ⟨_, _, hpure⟩ := except_bind_eq_ok.mp hstore
        exact (Prod.mk.inj (Except.ok.inj hpure)).1.symm
      · intro composition hcomposed
        unfold applyPlan at happly
        rw [hcomposed] at happly
        obtain ⟨_, hguard, _⟩ := except_bind_eq_ok.mp happly
        exact hguard

/-! ### Plans in flight -/

/-- The plan was prepared in an earlier sound state. -/
def Planned (r : Repository Id) (call : PublishCall Id) (plan : Plan Id) : Prop :=
  ∃ r₀ S₀, Sound r₀ S₀ ∧ Later r₀ r ∧ r₀.prepareIn call = .ok (.advance plan)

theorem Planned.later (hp : Planned r call plan) (h : Later r r') : Planned r' call plan := by
  obtain ⟨r₀, S₀, hs₀, hl, hok⟩ := hp
  exact ⟨r₀, S₀, hs₀, hl.trans h, hok⟩

/-- What a plan says that was just prepared. -/
theorem of_prepareIn (hok : r.prepareIn call = .ok (.advance plan)) :
    r.publications.get? call.operation = none ∧ r.attempts.get? call.operation = none ∧
      r.verifyHead call.expected = .ok () ∧ r.warningsIn call.attribution = .ok plan.warnings ∧
      r.headIn = .ok plan.against ∧ r.layerStateIn call.expected.layer = .ok plan.actual ∧
      r.composeActive call.expected plan.against plan.actual = .ok plan.composed := by
  unfold prepareIn at hok
  obtain ⟨stored, hstored, h₁⟩ := except_bind_eq_ok.mp hok
  unfold publication at hstored
  cases hpub : r.publications.get? call.operation with
  | some row =>
      rw [hpub] at hstored
      obtain ⟨receipt, _, hpure⟩ := except_bind_eq_ok.mp hstored
      obtain rfl := Except.ok.inj hpure
      obtain ⟨_, _, hreplay⟩ := except_bind_eq_ok.mp h₁
      cases hreplay
  | none =>
      rw [hpub] at hstored
      obtain rfl := Except.ok.inj hstored
      obtain ⟨plan', hplan, hpure⟩ := except_bind_eq_ok.mp h₁
      obtain rfl := Prepared.advance.inj (Except.ok.inj hpure)
      unfold planIn at hplan
      obtain ⟨_, hatt, h₂⟩ := except_bind_eq_ok.mp hplan
      obtain ⟨_, hverify, h₃⟩ := except_bind_eq_ok.mp h₂
      obtain ⟨warnings, hwarnings, h₄⟩ := except_bind_eq_ok.mp h₃
      obtain ⟨_, _, h₅⟩ := except_bind_eq_ok.mp h₄
      obtain ⟨against, hagainst, h₆⟩ := except_bind_eq_ok.mp h₅
      obtain ⟨_, _, h₇⟩ := except_bind_eq_ok.mp h₆
      obtain ⟨_, _, h₈⟩ := except_bind_eq_ok.mp h₇
      obtain ⟨actual, hactual, h₉⟩ := except_bind_eq_ok.mp h₈
      obtain ⟨composed, hcomposed, h₁₀⟩ := except_bind_eq_ok.mp h₉
      obtain rfl := Except.ok.inj h₁₀
      rw [refuse_eq_ok, not_not] at hatt
      exact ⟨rfl, hatt, hverify, hwarnings, hagainst, hactual, hcomposed⟩

/-- What a plan says of the state it is carried out in. -/
structure Fits (r : Repository Id) (S : VersionNumber → Manifest Id) (call : PublishCall Id)
    (plan : Plan Id) : Prop where
  unused : r.publications.get? call.operation = none
  unowned : r.attempts.get? call.operation = none
  head : r.versions.getLast? = some plan.against
  actual : r.layerStateIn call.expected.layer = .ok plan.actual
  expected : r.layerHeadIn call.expected.layer call.expected.revision = .ok call.expected
  warnings : r.warningsIn call.attribution = .ok plan.warnings
  stale : plan.composed = none → plan.actual ≠ .active call.expected
  active : plan.composed ≠ none → plan.actual = .active call.expected
  conflict : ∀ paths, plan.composed = some (.inl paths) →
    r.composeIn call.expected plan.against = .ok (.inl paths)
  composition : ∀ composition, plan.composed = some (.inr composition) →
    (∃ composition', r.composeIn call.expected plan.against = .ok (.inr composition') ∧
      composition'.changes = composition.changes ∧ composition'.tree = composition.tree) ∧
    ∃ checkpoint, Frozen r S call.expected.checkpoint checkpoint ∧
      Composes r S checkpoint plan.against.number composition

/-- A plan that is still up to date fits. -/
theorem Planned.fits (hp : Planned r call plan) (hs : Sound r S)
    (hcurrent : r.current call plan = .ok true) : Fits r S call plan := by
  obtain ⟨r₀, S₀, hs₀, hl, hok⟩ := hp
  obtain ⟨hunused, hunowned, hhead, hactual⟩ := (current_eq_ok hs.chain).mp hcurrent
  obtain ⟨_, _, hverify, hwarnings, hhead₀, _, hcomposed⟩ := of_prepareIn hok
  obtain ⟨hrepo, _, e, he, hlive, hcheckpoint⟩ := verifyHead_eq_ok.mp hverify
  have hlast₀ := hs₀.chain.headIn_eq_ok.mp hhead₀
  obtain ⟨hw₀, _⟩ := hs₀.chain.getElem?_of_head hlast₀
  have hexpected : r₀.layerHeadIn call.expected.layer call.expected.revision = .ok call.expected := by
    rw [layerHeadIn_eq_ok]
    refine ⟨e, he, hlive, ?_⟩
    rw [hcheckpoint, ← hrepo]
  unfold composeActive at hcomposed
  refine ⟨hunused, hunowned, hhead, hactual, hl.layerHeadIn _ _ _ hexpected,
    hl.warningsIn _ _ hwarnings, ?_, ?_, ?_, ?_⟩
  · intro hnone hactive
    rw [if_pos hactive, hnone] at hcomposed
    obtain ⟨_, _, hpure⟩ := except_bind_eq_ok.mp hcomposed
    cases hpure
  · intro hsome
    by_contra hactive
    rw [if_neg hactive] at hcomposed
    exact hsome (Except.ok.inj hcomposed).symm
  · intro paths hpaths
    by_cases hactive : plan.actual = .active call.expected
    · rw [if_pos hactive, hpaths] at hcomposed
      obtain ⟨composed, hcompose, hpure⟩ := except_bind_eq_ok.mp hcomposed
      obtain rfl := Option.some.inj (Except.ok.inj hpure)
      obtain ⟨composed', hok', halike⟩ := hl.composeIn hs₀.chain hs.chain hw₀ hcompose
      cases composed' with
      | inl paths' => rw [show paths = paths' from halike]; exact hok'
      | inr c => exact halike.elim
    · rw [if_neg hactive, hpaths] at hcomposed
      cases hcomposed
  · intro composition hcomposition
    by_cases hactive : plan.actual = .active call.expected
    · rw [if_pos hactive, hcomposition] at hcomposed
      obtain ⟨composed, hcompose, hpure⟩ := except_bind_eq_ok.mp hcomposed
      obtain rfl := Option.some.inj (Except.ok.inj hpure)
      obtain ⟨composed', hok', halike⟩ := hl.composeIn hs₀.chain hs.chain hw₀ hcompose
      obtain ⟨checkpoint, hf, _, hcomp⟩ := of_composeIn hs₀.chain hw₀ hcompose
      have hcomp : Composes r₀ S₀ checkpoint plan.against.number composition := hcomp
      obtain ⟨v, hv, _⟩ := hf.version
      have hbase := hl.snapshot hs₀.chain hs.chain hv
      have hworld := hl.snapshot hs₀.chain hs.chain hw₀
      refine ⟨?_, checkpoint, hf.later hl hs₀.chain hs.chain, ?_, hcomp.changes, ?_⟩
      · cases composed' with
        | inl paths => exact halike.elim
        | inr c => exact ⟨c, hok', halike.1.symm, halike.2.symm⟩
      · intro x hx
        unfold Meets at hx
        rw [hbase, hworld] at hx
        exact hcomp.apart x hx
      · rw [hworld]
        refine IsDir.mono (fun c hc => ⟨hc.1, hc.2.imp_right (fun hor => ?_)⟩) hcomp.tree
        exact hor.imp_left hl.objects.stored
    · rw [if_neg hactive, hcomposition] at hcomposed
      cases hcomposed

/-! ### The state after a commit -/

omit [LinearOrder Id] [Encoding Id] in
theorem tag_eq_published : outcome.tag = .published ↔ ∃ version, outcome = .published version := by
  cases outcome with
  | published version => exact ⟨fun _ => ⟨version, rfl⟩, fun _ => rfl⟩
  | conflict paths =>
      constructor
      · intro h
        cases h
      · rintro ⟨_, h⟩
        cases h
  | layerStale actual =>
      constructor
      · intro h
        cases h
      · rintro ⟨_, h⟩
        cases h

theorem PublicationOnly.events (h : PublicationOnly r r') (layer : LayerId) :
    r'.events layer = r.events layer := by
  unfold Repository.events
  rw [h.layerHeads]

theorem Committed.later (h : Committed r call plan outcome r') (hfits : Fits r S call plan)
    (hc : Chain r S) : Later r r' := by
  obtain ⟨blob, hpubs, _⟩ := h.publications
  obtain ⟨_, hlen⟩ := hc.getElem?_of_head hfits.head
  have hkept : ∀ op row, r.publications.get? op = some row → op ≠ call.operation := by
    rintro op row hrow rfl
    rw [hfits.unused] at hrow
    cases hrow
  have hworld : (∀ (n : ℕ) v, r.versions[n]? = some v → r'.versions[n]? = some v) ∧
      (∀ n < r.versions.length, r'.changes.get? n = r.changes.get? n) ∧
      ∀ op, op ≠ call.operation → r'.attempts.get? op = r.attempts.get? op := by
    cases h.world with
    | layerStale _ hv hch ha _ _ =>
        rw [hv, hch, ha]
        exact ⟨fun _ _ hv => hv, fun _ _ => rfl, fun _ _ => rfl⟩
    | conflict _ _ hv hch ha _ _ =>
        rw [hv, hch, ha]
        exact ⟨fun _ _ hv => hv, fun _ _ => rfl, fun _ _ => rfl⟩
    | published composition version _ hp =>
        rw [hp.versions, hp.changes, hp.attempts]
        refine ⟨?_, ?_, ?_⟩
        · intro n v hv
          obtain ⟨hlt, _⟩ := List.getElem?_eq_some_iff.mp hv
          rwa [List.getElem?_append_left hlt]
        · intro n hn
          rw [hlen] at hn
          rw [SortedMap.get?_insert, if_neg]
          exact fun he => absurd hn (he ▸ Nat.lt_irrefl _)
        · intro op hne
          rw [SortedMap.get?_insert, if_neg (Ne.symm hne)]
  obtain ⟨hversions, hchanges, hattempts⟩ := hworld
  refine ⟨h.only.identity, h.only.objects, hversions, hchanges, ?_, ?_, ?_, ?_, ?_, ?_, ?_, ?_⟩
  · intro op a ha
    rw [hattempts]
    · exact ha
    · rintro rfl
      rw [hfits.unowned] at ha
      cases ha
  · intro layer n e he
    rwa [h.only.events]
  · intro op a ha
    rwa [h.only.layerAttempts]
  · intro op a _
    rw [h.only.stackRows]
  · intro op row hrow
    rw [hpubs, SortedMap.get?_insert, if_neg (Ne.symm (hkept op row hrow))]
    exact hrow
  · intro op row hrow htag
    rw [hpubs, SortedMap.get?_insert] at hrow
    by_cases hop : call.operation = op
    · rw [if_pos hop] at hrow
      obtain rfl := Option.some.inj hrow
      obtain ⟨version, rfl⟩ := tag_eq_published.mp htag
      cases h.world with
      | published composition _ _ hp =>
          refine Or.inr ⟨version.number, rfl, ?_⟩
          rw [hp.version_eq, hlen]
          exact Nat.le_refl _
    · rw [if_neg hop] at hrow
      exact Or.inl hrow
  · intro op row _ _
    exact h.only.events _
  · intro op row hrow ha
    rw [hattempts op (hkept op row hrow)]
    exact ha

/-- And to a chain, with the composed snapshot if the outcome is a success. -/
theorem Committed.chain (h : Committed r call plan outcome r') (hfits : Fits r S call plan)
    (hs : Sound r S) : ∃ S', Chain r' S' ∧ r'.versions.length ≤ MAX_VERSION + 1 := by
  cases h.world with
  | layerStale _ hv hch ha _ _ =>
      refine ⟨S, hs.chain.keep (h.only.honest hs.chain.honest) h.only.objects hv hch ?_, ?_⟩
      · exact fun _ _ hop => ha.symm ▸ hop
      · rw [hv]
        exact hs.bounded
  | conflict _ _ hv hch ha _ _ =>
      refine ⟨S, hs.chain.keep (h.only.honest hs.chain.honest) h.only.objects hv hch ?_, ?_⟩
      · exact fun _ _ hop => ha.symm ▸ hop
      · rw [hv]
        exact hs.bounded
  | published composition version hcomposed hp =>
      obtain ⟨_, checkpoint, hf, hcomp⟩ := hfits.composition composition hcomposed
      obtain ⟨hw, hlen⟩ := hs.chain.getElem?_of_head hfits.head
      have hexact := (untouched_iff.mpr hcomp.apart).exact checkpoint.changes.flat_nil
        (S plan.against.number).prefixFree hf.exact
      have htree : IsTree r'.objects.Readable
          ((S plan.against.number).flat.over composition.changes.flat) composition.tree := by
        rw [hcomp.changes]
        exact IsDir.mono (fun c hc => hc.readable h.only.objects hp.stored) hcomp.tree
      obtain ⟨T, _, hT⟩ := Trees.exists_snapshot htree
      rw [← hT] at htree
      have hdiff : composition.changes.flat = Flat.diff (S plan.against.number).flat T.flat := by
        rw [hT, hcomp.changes]
        exact hexact.eq_diff
      have hattempts : ∀ op a, r.attempts.get? op = some a → r'.attempts.get? op = some a := by
        intro op a hop
        rw [hp.attempts, SortedMap.get?_insert, if_neg]
        · exact hop
        · rintro rfl
          rw [hfits.unowned] at hop
          cases hop
      have hattempt : r'.attempts.get? call.operation =
          some ⟨plan.against.number, none, true, plan.against.number + 1⟩ := by
        rw [hp.attempts, SortedMap.get?_insert, if_pos rfl]
      have hversions := hp.versions
      rw [hp.version_eq] at hversions
      have hnext := hs.chain.append hfits.head (h.only.honest hs.chain.honest) h.only.objects hversions
        hp.changes hattempts hattempt (fun t ht => by cases ht) htree hdiff
      refine ⟨_, hnext, ?_⟩
      have hroom := hp.room
      rw [hp.versions, List.length_append, List.length_singleton, hlen]
      exact Nat.add_le_add_right hroom 1

/-! ### The receipt of a commit -/

/-- What a Layer's state says of its events and its success. -/
structure Observes (r : Repository Id) (layer : LayerId) (actual : LayerState Id) : Prop where
  latest : ∃ n e, r.latestIn layer = .ok (n, e) ∧ actual.revision = n
  observed : actual.observedPublication = none →
    r.successOf layer = none ∧ r.eventStateIn layer actual.revision = .ok actual
  published : ∀ op, actual.observedPublication = some op → ∃ row head version,
    r.publications.get? op = some row ∧ row.layer = layer ∧ row.outcome = .published ∧
      Succeeded r op row head version ∧ row.expected = actual.revision ∧
      actual = .published head op version

omit [LinearOrder Id] [Encoding Id] in
theorem state_observed {e : Event Id} {repository : Id} {layer : LayerId} {n : ℕ} :
    (e.state repository layer n).observedPublication = none ∧
      (e.state repository layer n).revision = n := by
  unfold Event.state
  cases e.discarded with
  | false => exact ⟨rfl, rfl⟩
  | true => exact ⟨rfl, rfl⟩

theorem Sound.observes (hs : Sound r S) {layer : LayerId} {actual : LayerState Id}
    (hok : r.layerStateIn layer = .ok actual) : Observes r layer actual := by
  cases hfind : r.successOf layer with
  | none =>
      rw [layerStateIn_of_open hfind, latestEventStateIn_eq_ok] at hok
      obtain ⟨n, e, hlatest, rfl⟩ := hok
      obtain ⟨hnone, hrev⟩ := @state_observed Id e r.identity layer n
      refine ⟨⟨n, e, hlatest, hrev⟩, fun _ => ⟨hfind, ?_⟩, ?_⟩
      · rw [hrev]
        exact eventStateIn_eq_ok.mpr ⟨e, (latestIn_eq_ok.mp hlatest).1, rfl⟩
      · intro op hop
        rw [hnone] at hop
        cases hop
  | some found =>
      obtain ⟨op, row⟩ := found
      have hp := List.find?_some hfind
      simp only [Bool.and_eq_true, decide_eq_true_eq] at hp
      have hrow := SortedMap.get?_eq_some.mpr (List.mem_of_find?_eq_some hfind)
      obtain ⟨rfl, htag⟩ := hp
      obtain ⟨head, version, hsucc, hstate⟩ := hs.layerStateIn_of_success hrow htag
      obtain rfl := Except.ok.inj (hstate.symm.trans hok)
      obtain ⟨e, _, _, hhead⟩ := layerHeadIn_eq_ok.mp hsucc.expected
      obtain ⟨n, e', hlatest, hactive⟩ := latestEventStateIn_eq_ok.mp hsucc.latest
      have hrev : head.revision = n := by
        have hr := congrArg LayerState.revision hactive
        rw [(state_observed).2] at hr
        exact hr
      refine ⟨⟨n, e', hlatest, hrev⟩, ?_, ?_⟩
      · intro hnone
        cases hnone
      · intro op' hop'
        obtain rfl := Option.some.inj hop'
        refine ⟨row, head, version, hrow, rfl, htag, hsucc, ?_, rfl⟩
        show row.expected = head.revision
        rw [hhead]

/-- A new success is the Layer's first one. -/
theorem Committed.once (h : Committed r call plan outcome r') (hfits : Fits r S call plan)
    (hs : Sound r S) : ∀ op op' row row', r'.publications.get? op = some row →
      r'.publications.get? op' = some row' → row.layer = row'.layer → row.outcome = .published →
      row'.outcome = .published → op = op' := by
  obtain ⟨blob, hpubs, _⟩ := h.publications
  -- A success besides the new one would have been observed.
  have hnew : ∀ op row, outcome.tag = .published → r.publications.get? op = some row →
      row.layer = call.expected.layer → row.outcome ≠ .published := by
    intro op row htag hrow hlayer hpub
    obtain ⟨version, rfl⟩ := tag_eq_published.mp htag
    cases h.world with
    | published composition _ hcomposed _ =>
        have hactive := hfits.active (by rw [hcomposed]; simp)
        have hnone : r.successOf call.expected.layer = none := by
          have hobs := hs.observes hfits.actual
          rw [hactive] at hobs
          exact (hobs.observed rfl).1
        exact successOf_eq_none.mp hnone op row hrow hlayer hpub
  intro op op' row row' hrow hrow' hlayer htag htag'
  rw [hpubs, SortedMap.get?_insert] at hrow hrow'
  by_cases hop : call.operation = op
  · rw [if_pos hop] at hrow
    obtain rfl := Option.some.inj hrow
    by_cases hop' : call.operation = op'
    · exact hop.symm.trans hop'
    · rw [if_neg hop'] at hrow'
      exact absurd htag' (hnew op' row' htag hrow' hlayer.symm)
  · rw [if_neg hop] at hrow
    by_cases hop' : call.operation = op'
    · rw [if_pos hop'] at hrow'
      obtain rfl := Option.some.inj hrow'
      exact absurd htag (hnew op row htag' hrow hlayer)
    · rw [if_neg hop'] at hrow'
      exact hs.once op op' row row' hrow hrow' hlayer htag htag'

section receipt
variable (h : Committed r call plan outcome r') (hfits : Fits r S call plan) (hs : Sound r S)
  (hl : Later r r') (hc' : Chain r' S')
include h hfits hs hl hc'

omit h in
/-- What the publication observed reads back. -/
theorem Fits.observedIn (blob : Id) :
    r'.observedIn call.operation (call.row plan outcome blob) = .ok plan.actual := by
  have hobs := hs.observes hfits.actual
  unfold Repository.observedIn
  cases hnone : plan.actual.observedPublication with
  | none =>
      obtain ⟨_, hstate⟩ := hobs.observed hnone
      have hstate' : r'.eventStateIn (call.row plan outcome blob).layer
          (call.row plan outcome blob).observed = .ok plan.actual := hl.eventStateIn _ _ _ hstate
      have hrow : (call.row plan outcome blob).observedPublication = none := hnone
      rw [hrow, except_bind_of_ok hstate']
      rfl
  | some op =>
      obtain ⟨row, head, version, hrow, hlayer, htag, hsucc, hrev, hactual⟩ := hobs.published op hnone
      have hobserved : (call.row plan outcome blob).observedPublication = some op := hnone
      have hevent : ∃ state, r.eventStateIn call.expected.layer plan.actual.revision = .ok state := by
        obtain ⟨e, he, _⟩ := layerHeadIn_eq_ok.mp hsucc.expected
        rw [hlayer, hrev] at he
        exact ⟨_, eventStateIn_eq_ok.mpr ⟨e, he, rfl⟩⟩
      obtain ⟨state, hstate⟩ := hevent
      have hstate' : r'.eventStateIn (call.row plan outcome blob).layer
          (call.row plan outcome blob).observed = .ok state := hl.eventStateIn _ _ _ hstate
      have hne : op ≠ call.operation := by
        rintro rfl
        rw [hfits.unused] at hrow
        cases hrow
      have hold : ¬ row.result.all (fun n => decide (plan.against.number < n)) = true := by
        obtain ⟨hw, hlen⟩ := hs.chain.getElem?_of_head hfits.head
        obtain ⟨hlt, _⟩ := List.getElem?_eq_some_iff.mp hsucc.stored
        rw [hlen] at hlt
        rw [hsucc.result]
        simp only [Option.all_some, decide_eq_true_eq, not_lt]
        exact Nat.le_of_lt_succ hlt
      have hfirst : refuse (row.layer ≠ call.expected.layer)
          (corrupt "missing observed publication" : Error Id) = .ok () := by
        rw [refuse_eq_ok, not_not]
        exact hlayer
      have hsecond : refuse (op = call.operation ∨ row.expected ≠ plan.actual.revision ∨
          row.result.all (fun n => decide (plan.against.number < n)) = true)
          (corrupt "invalid observed publication binding" : Error Id) = .ok () := by
        rw [refuse_eq_ok, not_or, not_or, not_not]
        exact ⟨hne, hrev, hold⟩
      rw [hobserved, except_bind_of_ok hstate']
      simp only
      rw [hl.publications op row hrow]
      show (refuse (row.layer ≠ call.expected.layer) _ >>= fun _ => _) = _
      rw [except_bind_of_ok hfirst]
      show (refuse (op = call.operation ∨ row.expected ≠ plan.actual.revision ∨
        row.result.all (fun n => decide (plan.against.number < n)) = true) _ >>= fun _ => _) = _
      rw [except_bind_of_ok hsecond, hactual]
      exact hl.successState hs.chain hc' op row _ (hsucc.successState hs.chain htag)

omit hc' hl in
/-- No success that the publication could see was overlooked. -/
theorem Committed.not_ignoresTerminal (blob : Id) :
    ¬ r'.ignoresTerminal (call.row plan outcome blob) = true := by
  obtain ⟨blob', hpubs, _⟩ := h.publications
  have hobs := hs.observes hfits.actual
  rw [ignoresTerminal_iff]
  rintro ⟨op, prior, n, hget, hlayer, htag, hn, hle, hne⟩
  rw [hpubs, SortedMap.get?_insert] at hget
  by_cases hop : call.operation = op
  · rw [if_pos hop] at hget
    obtain rfl := Option.some.inj hget
    obtain ⟨version, rfl⟩ := tag_eq_published.mp htag
    cases h.world with
    | published composition _ _ hp =>
        obtain rfl := Option.some.inj hn
        rw [hp.version_eq] at hle
        exact Nat.not_succ_le_self _ hle
  · rw [if_neg hop] at hget
    cases hnone : plan.actual.observedPublication with
    | none =>
        obtain ⟨hopen, _⟩ := hobs.observed hnone
        exact successOf_eq_none.mp hopen op prior hget hlayer htag
    | some op' =>
        obtain ⟨row, _, _, hrow, hlayer', htag', _⟩ := hobs.published op' hnone
        refine hne ?_
        rw [hs.once op op' prior row hget hrow (hlayer.trans hlayer'.symm) htag htag']
        exact hnone

/-- The outcome is derived again. -/
theorem Committed.outcomeIn (blob : Id) :
    r'.outcomeIn call.operation (call.row plan outcome blob) call.expected plan.against plan.actual =
      .ok outcome := by
  obtain ⟨hw, hlen⟩ := hs.chain.getElem?_of_head hfits.head
  unfold Repository.outcomeIn
  cases h.world with
  | layerStale hcomposed _ _ ha _ _ =>
      have hunowned : refuse (r'.attempts.get? call.operation ≠ none ∨
          (none : Option VersionNumber) ≠ none ∨ (none : Option OperationId) ≠ none)
          (corrupt "failed publication owns a World attempt" : Error Id) = .ok () := by
        rw [refuse_eq_ok, ha, hfits.unowned]
        simp
      have hstale : refuse (plan.actual = .active call.expected)
          (corrupt "stale publication observed exact Active head" : Error Id) = .ok () := by
        rw [refuse_eq_ok]
        exact hfits.stale hcomposed
      show (refuse _ _ >>= fun _ => refuse _ _ >>= fun _ => _) = _
      exact (except_bind_of_ok hunowned).trans (except_bind_of_ok hstale)
  | conflict paths hcomposed _ _ ha _ _ =>
      have hunowned : refuse (r'.attempts.get? call.operation ≠ none ∨
          (none : Option VersionNumber) ≠ none ∨ (none : Option OperationId) ≠ none)
          (corrupt "failed publication owns a World attempt" : Error Id) = .ok () := by
        rw [refuse_eq_ok, ha, hfits.unowned]
        simp
      have hactive : refuse (plan.actual ≠ .active call.expected)
          (corrupt "conflict did not observe exact Active head" : Error Id) = .ok () := by
        rw [refuse_eq_ok, not_not]
        exact hfits.active (by rw [hcomposed]; simp)
      obtain ⟨composed, hcompose, halike⟩ :=
        hl.composeIn hs.chain hc' hw (hfits.conflict paths hcomposed)
      show (refuse _ _ >>= fun _ => refuse _ _ >>= fun _ => r'.composeIn _ _ >>= fun _ => _) = _
      refine (except_bind_of_ok hunowned).trans ((except_bind_of_ok hactive).trans ?_)
      rw [except_bind_of_ok hcompose]
      cases composed with
      | inl paths' => rw [show paths = paths' from halike]; rfl
      | inr c => exact halike.elim
  | published composition version hcomposed hp =>
      obtain ⟨⟨composition', hcompose, hchanges, htree⟩, _⟩ := hfits.composition composition hcomposed
      have hactive := hfits.active (by rw [hcomposed]; simp)
      obtain ⟨composed, hcompose', halike⟩ := hl.composeIn hs.chain hc' hw hcompose
      cases composed with
      | inl paths => exact halike.elim
      | inr composition'' =>
          obtain ⟨hchanges', htree'⟩ := halike
          rw [hchanges] at hchanges'
          rw [htree] at htree'
          have hobs := hs.observes hfits.actual
          have hopen : r.successOf call.expected.layer = none := by
            rw [hactive] at hobs
            exact (hobs.observed rfl).1
          have hlatest : r'.latestEventStateIn call.expected.layer = .ok plan.actual := by
            have hstate := hfits.actual
            rw [layerStateIn_of_open hopen] at hstate
            unfold Repository.latestEventStateIn latestIn
            rw [h.only.events, h.only.identity]
            exact hstate
          have hnumber : version.number = plan.against.number + 1 := by
            rw [hp.version_eq]
            rfl
          have hstored : r'.versions[version.number]? = some version := by
            rw [hp.versions, hnumber, ← hlen]
            exact List.getElem?_concat_length
          have hrows : r'.changesetIn version.number = .ok composition''.changes := by
            unfold Repository.changesetIn changeRows
            rw [hp.changes, hnumber, SortedMap.get?_insert, if_pos rfl, ← hchanges']
            exact SparseChanges.ofMap_eq_ok.mpr rfl
          have hattempt : r'.attempts.get? call.operation ≠ none := by
            rw [hp.attempts, SortedMap.get?_insert, if_pos rfl]
            simp
          have hversion : version.operation = some call.operation ∧
              version.tree = composition''.tree ∧ version.id =
                versionId (some plan.against.id) composition''.tree composition''.changes := by
            rw [hp.version_eq, ← hchanges', ← htree']
            exact ⟨rfl, rfl, rfl⟩
          exact (publishedOutcome_eq_ok hc').mpr ⟨version.number, version, composition'', rfl,
            ⟨hactive, rfl, hattempt, hnumber.symm⟩, hlatest, hcompose', hstored, hversion, hrows, rfl⟩

/-- The new receipt reads back. -/
theorem Committed.receiptIn {blob : Id}
    (hblob : r'.objects.readBlob blob = .ok (receiptBytes (call.receipt plan outcome))) :
    r'.receiptIn call.operation (call.row plan outcome blob) = .ok (call.receipt plan outcome) := by
  obtain ⟨hw, hlen⟩ := hs.chain.getElem?_of_head hfits.head
  have hobs := hs.observes hfits.actual
  obtain ⟨e, he, _, hexpected⟩ := layerHeadIn_eq_ok.mp hfits.expected
  obtain ⟨base, hbase⟩ := (hs.history call.expected.layer).based
  obtain ⟨checkpoint, hf, _⟩ := hbase _ e he
  have hcheckpoint : e.checkpoint = call.expected.checkpoint := by
    rw [hexpected]
  rw [hcheckpoint] at hf
  have hrevision : call.expected.revision ≤ plan.actual.revision := by
    obtain ⟨n, e', hlatest, hrev⟩ := hobs.latest
    rw [hrev]
    exact (latestIn_eq_ok.mp hlatest).2 _ e he
  have hle : checkpoint.base.version ≤ plan.against.number := by
    obtain ⟨v, hv, _⟩ := hf.version
    obtain ⟨hlt, _⟩ := List.getElem?_eq_some_iff.mp hv
    rw [hlen] at hlt
    exact Nat.le_of_lt_succ hlt
  exact (receiptIn_eq_ok hc').mpr ⟨call.expected, plan.against, checkpoint, plan.warnings, plan.actual,
    outcome, hl.layerHeadIn _ _ _ hfits.expected, ⟨rfl, hrevision⟩, hl.versions _ _ hw,
    hf.later hl hs.chain hc', hle, hl.warningsIn _ _ hfits.warnings,
    hfits.observedIn hs hl hc' blob, h.not_ignoresTerminal hfits hs blob,
    h.outcomeIn hfits hs hl hc' blob, hblob, rfl⟩

end receipt

theorem Committed.sound (h : Committed r call plan outcome r') (hfits : Fits r S call plan)
    (hs : Sound r S) : Later r r' ∧ ∃ S', Sound r' S' := by
  have hl := h.later hfits hs.chain
  obtain ⟨S', hc', hbounded⟩ := h.chain hfits hs
  obtain ⟨blob, hpubs, hblob⟩ := h.publications
  refine ⟨hl, S', hs.later hl hc' hbounded (fun layer => Or.inl (h.only.events layer)) ?_ ?_ ?_
    (h.once hfits hs)⟩
  · rw [h.only.layerAttempts]
    exact fun _ _ ha => Or.inl ha
  · rw [h.only.stackRows]
    exact fun _ _ hrow => Or.inl hrow
  · intro op row hrow
    rw [hpubs, SortedMap.get?_insert] at hrow
    by_cases hop : call.operation = op
    · subst hop
      rw [if_pos rfl] at hrow
      obtain rfl := Option.some.inj hrow
      exact Or.inr ⟨_, h.receiptIn hfits hs hl hc' hblob⟩
    · rw [if_neg hop] at hrow
      exact Or.inl hrow

end Repository

end Javelin
