import Javelin.Publications

/-! # Publishing two Layers

Two active Layers that each compose with the World are published one after the other.  Whatever
their bases, the second one meets the first exactly where a path of its delta is comparable to one
of the other (`Flat.Untouched.over_iff`), which is symmetric, and apart deltas overwrite in either
order alike (`Flat.Apart.over_comm`).  So the orders end alike (`Reachable.publishes_commute`). -/

namespace Javelin

open KeyedList

theorem Comparable.symm {p q : List Name} (h : Comparable p q) : Comparable q p := Or.symm h

/-! ### Two deltas -/

namespace Flat
variable {V : Type} {B H : Flat V} {c d : Flat (Option V)}

/-- No path of one delta is comparable to one of the other. -/
def Apart (c d : Flat (Option V)) : Prop := ∀ p q, c p ≠ none → d q ≠ none → ¬ Comparable p q

theorem Apart.symm (h : Apart c d) : Apart d c := fun p q hp hq hpq => h q p hq hp hpq.symm

/-- Apart deltas overwrite in either order alike. -/
theorem Apart.over_comm (h : Apart c d) : (H.over c).over d = (H.over d).over c := by
  funext p
  unfold Flat.over
  cases hc : c p with
  | none => rfl
  | some e =>
      have hd : d p = none := by
        by_contra hne
        exact h p p (by simp [hc]) hne (Or.inl (List.prefix_refl p))
      rw [hd]
      rfl

/-- What differs from the base near an untouched delta, after another exact delta, is what that
delta changes. -/
theorem Untouched.ne_over_iff (h : Untouched B H c) (hd : ∀ p e, d p = some e → H p ≠ e)
    {p q : List Name} (hp : c p ≠ none) (hq : q ≠ []) (hpq : Comparable p q) :
    B q ≠ H.over d q ↔ d q ≠ none := by
  rw [h p q hp hq hpq]
  cases hdq : d q with
  | none => simp [over_of_none hdq]
  | some e => simp [over_of_some hdq, hd q e hdq]

/-- An untouched delta stays untouched after an exact one exactly if they are apart. -/
theorem Untouched.over_iff (h : Untouched B H c) (hd : ∀ p e, d p = some e → H p ≠ e)
    (hnil : d [] = none) : Untouched B (H.over d) c ↔ Apart c d := by
  constructor
  · intro hu p q hp hq hpq
    have hne : q ≠ [] := by
      rintro rfl
      exact hq hnil
    exact (h.ne_over_iff hd hp hne hpq).mpr hq (hu p q hp hne hpq)
  · intro ha p q hp hq hpq
    by_contra hne
    exact ha p q hp ((h.ne_over_iff hd hp hq hpq).mp hne) hpq

end Flat

variable {Id : Type} [LinearOrder Id] [Encoding Id]

namespace Repository
variable {r r' : Repository Id} {S S' : VersionNumber → Manifest Id} {call : PublishCall Id}
  {plan : Plan Id} {guard : Guard Id}

/-! ### One publication -/

theorem override_of_prepareIn (hok : r.prepareIn call = .ok (.advance plan)) :
    checkOverride call.attribution = (.ok () : Except (Error Id) Unit) := by
  unfold prepareIn at hok
  obtain ⟨stored, hstored, h₁⟩ := except_bind_eq_ok.mp hok
  cases stored with
  | some receipt =>
      obtain ⟨_, _, hreplay⟩ := except_bind_eq_ok.mp h₁
      cases hreplay
  | none =>
      obtain ⟨plan', hplan, _⟩ := except_bind_eq_ok.mp h₁
      unfold planIn at hplan
      obtain ⟨_, _, h₂⟩ := except_bind_eq_ok.mp hplan
      obtain ⟨_, _, h₃⟩ := except_bind_eq_ok.mp h₂
      obtain ⟨_, _, h₄⟩ := except_bind_eq_ok.mp h₃
      obtain ⟨_, hoverride, _⟩ := except_bind_eq_ok.mp h₄
      exact hoverride

/-- A plan is up to date when it was just prepared. -/
theorem current_of_prepareIn (hc : Chain r S) (hok : r.prepareIn call = .ok (.advance plan)) :
    r.current call plan = .ok true := by
  obtain ⟨hunused, hunowned, _, _, hhead, hactual, _⟩ := of_prepareIn hok
  exact (current_eq_ok hc).mpr ⟨hunused, hunowned, hc.headIn_eq_ok.mp hhead, hactual⟩

/-- What a whole call did, by the plan it prepared. -/
theorem of_publishLayer (hc : Chain r S) (hprepare : r.prepareIn call = .ok (.advance plan))
    {receipt : PublicationReceipt Id} {rounds : ℕ}
    (hok : r.publishLayer call guard (rounds + 1) = .ok (receipt, r')) :
    ∃ outcome, Committed r call plan outcome r' ∧ receipt = call.receipt plan outcome := by
  unfold publishLayer at hok
  rw [except_bind_of_ok hprepare] at hok
  obtain ⟨done, hcommit, hrest⟩ := except_bind_eq_ok.mp hok
  cases done with
  | some done =>
      obtain rfl := Except.ok.inj hrest
      obtain ⟨_, outcome, hcommitted, hreceipt, _⟩ := of_commitIn hcommit
      exact ⟨outcome, hcommitted, hreceipt⟩
  | none =>
      unfold commitIn at hcommit
      rw [except_bind_of_ok (current_of_prepareIn hc hprepare), if_pos rfl] at hcommit
      obtain ⟨_, _, h₁⟩ := except_bind_eq_ok.mp hcommit
      obtain ⟨_, _, hpure⟩ := except_bind_eq_ok.mp h₁
      cases hpure

/-- A call goes through if its success has room and its guard agrees. -/
theorem exists_publishLayer (hs : Sound r S) (hi : Indexed r)
    (hprepare : r.prepareIn call = .ok (.advance plan))
    (hgo : ∀ composition, plan.composed = some (.inr composition) →
      guard plan.against composition.changes = .ok () ∧ plan.against.number < MAX_VERSION) :
    ∃ outcome r', Committed r call plan outcome r' ∧
      ∀ rounds, r.publishLayer call guard (rounds + 1) = .ok (call.receipt plan outcome, r') := by
  obtain ⟨outcome, r', hcommit, hcommitted⟩ := exists_commitIn hs hi ⟨r, S, hs, .refl r, hprepare⟩
    (current_of_prepareIn hs.chain hprepare) hgo
  exact ⟨outcome, r', hcommitted, publishLayer_of_commitIn hprepare hcommit⟩

/-- A call on an active Layer with nothing changed near its delta. -/
structure Ready (r : Repository Id) (S : VersionNumber → Manifest Id) (call : PublishCall Id)
    (world : WorldVersion Id) (warnings : List PublishWarning) (checkpoint : LayerCheckpoint Id) :
    Prop where
  unused : r.publications.get? call.operation = none
  unowned : r.attempts.get? call.operation = none
  active : r.layerStateIn call.expected.layer = .ok (.active call.expected)
  warned : r.warningsIn call.attribution = .ok warnings
  override : checkOverride call.attribution = (.ok () : Except (Error Id) Unit)
  head : r.versions.getLast? = some world
  frozen : Frozen r S call.expected.checkpoint checkpoint
  untouched : Flat.Untouched (S checkpoint.base.version).flat (S world.number).flat
    checkpoint.changes.flat

theorem Ready.exact {world : WorldVersion Id} {warnings : List PublishWarning}
    {checkpoint : LayerCheckpoint Id} (h : Ready r S call world warnings checkpoint) :
    Flat.Exact (S world.number).flat checkpoint.changes.flat :=
  h.untouched.exact checkpoint.changes.flat_nil (S world.number).prefixFree h.frozen.exact

theorem Frozen.base_le {id : Id} {checkpoint : LayerCheckpoint Id} {world : WorldVersion Id}
    (hf : Frozen r S id checkpoint) (hc : Chain r S) (hhead : r.versions.getLast? = some world) :
    checkpoint.base.version ≤ world.number := by
  obtain ⟨_, hlen⟩ := hc.getElem?_of_head hhead
  obtain ⟨v, hv, _⟩ := hf.version
  obtain ⟨hlt, _⟩ := List.getElem?_eq_some_iff.mp hv
  rw [hlen] at hlt
  exact Nat.le_of_lt_succ hlt

/-- A plan with a composition fits, and its call was ready. -/
theorem Sound.ready (hs : Sound r S) (hprepare : r.prepareIn call = .ok (.advance plan))
    {composition : Composition Id} (hcomposed : plan.composed = some (.inr composition)) :
    Fits r S call plan ∧ ∃ checkpoint, Ready r S call plan.against plan.warnings checkpoint := by
  have hplanned : Planned r call plan := ⟨r, S, hs, .refl r, hprepare⟩
  have hfits := hplanned.fits hs (current_of_prepareIn hs.chain hprepare)
  obtain ⟨_, checkpoint, hf, hcomp⟩ := hfits.composition composition hcomposed
  have hactive := hfits.actual
  rw [hfits.active (by rw [hcomposed]; simp)] at hactive
  exact ⟨hfits, checkpoint, hfits.unused, hfits.unowned, hactive, hfits.warnings,
    override_of_prepareIn hprepare, hfits.head, hf, untouched_iff.mpr hcomp.apart⟩

/-! ### A second publication -/

section second
variable {a b : PublishCall Id} {planB : Plan Id} {checkpointA checkpointB : LayerCheckpoint Id}
  {version world : WorldVersion Id} {warnings warnings' : List PublishWarning}

/-- After another Layer was published, preparing is composing with the new head. -/
theorem Ready.prepareIn_after (ha : Ready r S a world warnings checkpointA) (hs : Sound r S)
    (hb : Committed r b planB (.published version) r') (hfits : Fits r S b planB) (hs' : Sound r' S')
    (hlast : r'.versions.getLast? = some version) (hlayer : b.expected.layer ≠ a.expected.layer)
    (hop : b.operation ≠ a.operation) :
    r'.prepareIn a = r'.composeIn a.expected version >>= fun composed =>
      .ok (.advance ⟨version, .active a.expected, warnings, some composed⟩) := by
  have hl := hb.later hfits hs.chain
  obtain ⟨⟨_, _, _, hopen⟩, _⟩ := hs.live_of_active ha.active
  have hopen' : r'.successOf a.expected.layer = none :=
    (hb.successOf hfits (fun _ _ => hlayer)).mpr hopen
  have hactive' : r'.layerStateIn a.expected.layer = .ok (.active a.expected) := by
    have hstate := ha.active
    rw [layerStateIn_of_open hopen] at hstate
    rw [layerStateIn_of_open hopen']
    unfold Repository.latestEventStateIn latestIn at hstate ⊢
    rw [hb.only.events, hb.only.identity]
    exact hstate
  have hunused' : r'.publications.get? a.operation = none := by
    obtain ⟨blob, hpubs, _⟩ := hb.publications
    rw [hpubs, SortedMap.get?_insert, if_neg hop]
    exact ha.unused
  have hunowned' : r'.attempts.get? a.operation = none := by
    cases hb.world with
    | published composition _ _ hp =>
        rw [hp.attempts, SortedMap.get?_insert, if_neg hop]
        exact ha.unowned
  exact prepareIn_of_active hs' hunused' hunowned' hactive' (hl.warningsIn _ _ ha.warned) ha.override
    hlast

/-- What publishing a Layer comes to, once another one was published before it. -/
structure Second (r' : Repository Id) (S' : VersionNumber → Manifest Id) (against : WorldVersion Id)
    (a : PublishCall Id) (checkpointA checkpointB : LayerCheckpoint Id) : Prop where
  published : Flat.Apart checkpointA.changes.flat checkpointB.changes.flat →
    ¬ TooTall MAX_DEPTH ((S' against.number).flat.over checkpointA.changes.flat) →
    against.number < MAX_VERSION → ∀ guard : Guard Id, (∀ world changes, guard world changes = .ok ()) →
    ∃ receipt version r'', (∀ rounds, r'.publishLayer a guard (rounds + 1) = .ok (receipt, r'')) ∧
      receipt.outcome = .published version ∧ ∃ S'', Sound r'' S'' ∧
        r''.versions[version.number]? = some version ∧
        (S'' version.number).flat = (S' against.number).flat.over checkpointA.changes.flat
  conflict : ¬ Flat.Apart checkpointA.changes.flat checkpointB.changes.flat → ∀ guard : Guard Id,
    ∃ receipt paths r'', (∀ rounds, r'.publishLayer a guard (rounds + 1) = .ok (receipt, r'')) ∧
      receipt.outcome = .conflict paths ∧ paths.Nodup ∧ ∀ x : RepoPath, x ∈ paths ↔
        ∃ p q, checkpointA.changes.flat p ≠ none ∧ checkpointB.changes.flat q ≠ none ∧
          Comparable p q ∧ (x.names = p ∨ x.names = q)
  of_published : ∀ guard rounds receipt version r'',
    r'.publishLayer a guard (rounds + 1) = .ok (receipt, r'') → receipt.outcome = .published version →
      Flat.Apart checkpointA.changes.flat checkpointB.changes.flat ∧
      ¬ TooTall MAX_DEPTH ((S' against.number).flat.over checkpointA.changes.flat) ∧
      against.number < MAX_VERSION
  of_conflict : ∀ guard rounds receipt paths r'',
    r'.publishLayer a guard (rounds + 1) = .ok (receipt, r'') → receipt.outcome = .conflict paths →
      ¬ Flat.Apart checkpointA.changes.flat checkpointB.changes.flat
  refused : Flat.Apart checkpointA.changes.flat checkpointB.changes.flat →
    TooTall MAX_DEPTH ((S' against.number).flat.over checkpointA.changes.flat) ∨
      MAX_VERSION ≤ against.number →
    ∀ (guard : Guard Id) rounds, ∃ e, r'.publishLayer a guard (rounds + 1) = .error e

theorem Ready.second (ha : Ready r S a world warnings checkpointA)
    (hb : Ready r S b world warnings' checkpointB) (hfits : Fits r S b planB) (hs : Sound r S) (hcommitted : Committed r b planB (.published version) r') (hs' : Sound r' S')
    (hi' : Indexed r') (hlayer : b.expected.layer ≠ a.expected.layer) (hop : b.operation ≠ a.operation) :
    Second r' S' version a checkpointA checkpointB := by
  have hl := hcommitted.later hfits hs.chain
  obtain ⟨hlast, hnumber, hflat⟩ := hcommitted.snapshot hfits hs.chain hs'.chain hb.frozen
  have hprepare := ha.prepareIn_after hs hcommitted hfits hs' hlast hlayer hop
  obtain ⟨hw', _⟩ := hs'.chain.getElem?_of_head hlast
  have hf' := ha.frozen.later hl hs.chain hs'.chain
  have hhead : planB.against = world := Option.some.inj (hfits.head.symm.trans ha.head)
  have hle' := hf'.base_le hs'.chain hlast
  have hbase : (S' checkpointA.base.version).flat = (S checkpointA.base.version).flat := by
    obtain ⟨v, hv, _⟩ := ha.frozen.version
    rw [hl.snapshot hs.chain hs'.chain hv]
  rw [hhead] at hflat
  have hdiff : ∀ p e, checkpointB.changes.flat p = some e → (S world.number).flat p ≠ e :=
    fun p e he => hb.exact.ne he
  have hmeets : (∀ x, ¬ Meets S' checkpointA version.number x) ↔
      Flat.Apart checkpointA.changes.flat checkpointB.changes.flat := by
    rw [← untouched_iff, hbase, hflat]
    exact ha.untouched.over_iff hdiff checkpointB.changes.flat_nil
  have hcomposed : ∀ {guard : Guard Id} {rounds receipt r''},
      r'.publishLayer a guard (rounds + 1) = .ok (receipt, r'') →
        ∃ composed, r'.composeIn a.expected version = .ok composed := by
    intro guard rounds receipt r'' hok
    cases hcompose : r'.composeIn a.expected version with
    | ok composed => exact ⟨composed, rfl⟩
    | error e =>
        rw [hcompose] at hprepare
        unfold publishLayer at hok
        rw [hprepare] at hok
        cases hok
  have hofPublished : ∀ guard rounds receipt version' r'',
      r'.publishLayer a guard (rounds + 1) = .ok (receipt, r'') → receipt.outcome = .published version' →
        Flat.Apart checkpointA.changes.flat checkpointB.changes.flat ∧
        ¬ TooTall MAX_DEPTH ((S' version.number).flat.over checkpointA.changes.flat) ∧
        version.number < MAX_VERSION := by
    intro guard rounds receipt version' r'' hok hpublished
    obtain ⟨composed, hcompose⟩ := hcomposed hok
    rw [except_bind_of_ok hcompose] at hprepare
    obtain ⟨outcome, hcommit, rfl⟩ := of_publishLayer hs'.chain hprepare hok
    obtain rfl : outcome = .published version' := hpublished
    cases hcommit.world with
    | published composition _ hplan hp =>
        obtain rfl := Option.some.inj hplan
        obtain ⟨checkpoint, hf, _, hcomp⟩ := of_composeIn hs'.chain hw' hcompose
        have hread := (checkpointIn_eq_ok hs'.chain).mpr hf'
        rw [(checkpointIn_eq_ok hs'.chain).mpr hf] at hread
        obtain rfl := Except.ok.inj hread
        exact ⟨hmeets.mp hcomp.apart, hcomp.tree.not_tooTall, hp.room⟩
  have hofConflict : ∀ guard rounds receipt paths r'',
      r'.publishLayer a guard (rounds + 1) = .ok (receipt, r'') → receipt.outcome = .conflict paths →
        ¬ Flat.Apart checkpointA.changes.flat checkpointB.changes.flat := by
    intro guard rounds receipt paths r'' hok hconflict
    obtain ⟨composed, hcompose⟩ := hcomposed hok
    rw [except_bind_of_ok hcompose] at hprepare
    obtain ⟨outcome, hcommit, rfl⟩ := of_publishLayer hs'.chain hprepare hok
    obtain rfl : outcome = .conflict paths := hconflict
    cases hcommit.world with
    | conflict _ hplan =>
        obtain rfl := Option.some.inj hplan
        obtain ⟨checkpoint, hf, _, hkeys, found, hfound, hmem⟩ := of_composeIn hs'.chain hw' hcompose
        have hread := (checkpointIn_eq_ok hs'.chain).mpr hf'
        rw [(checkpointIn_eq_ok hs'.chain).mpr hf] at hread
        obtain rfl := Except.ok.inj hread
        rw [← hfound] at hkeys
        exact fun hapart => hkeys (SortedSet.keys_eq_nil.mpr fun x hx => hmeets.mpr hapart x ((hmem x).mp hx))
  refine ⟨fun hapart hlow hroom guard hguard => ?_, fun hnear guard => ?_, hofPublished, hofConflict,
    fun hapart hor guard rounds => ?_⟩
  · obtain ⟨composition, hcompose, _⟩ :=
      exists_composition hs'.chain hw' hf' hle' (hmeets.mpr hapart) hlow
    rw [except_bind_of_ok hcompose] at hprepare
    obtain ⟨outcome, r'', hcommit, hcall⟩ :=
      exists_publishLayer hs' hi' hprepare (fun c _ => ⟨hguard _ _, hroom⟩)
    have hplanned : Planned r' a _ := ⟨r', S', hs', .refl r', hprepare⟩
    have hfits' := hplanned.fits hs' (current_of_prepareIn hs'.chain hprepare)
    obtain ⟨_, S'', hs''⟩ := hcommit.sound hfits' hs'
    cases hcommit.world with
    | layerStale hplan => cases hplan
    | conflict paths hplan => cases hplan
    | published composition' version' hplan hp =>
        obtain ⟨hlast', _, hflat'⟩ := hcommit.snapshot hfits' hs'.chain hs''.chain hf'
        exact ⟨_, version', r'', hcall, rfl, S'', hs'', (hs''.chain.getElem?_of_head hlast').1, hflat'⟩
  · have hexists : ∃ x, Meets S' checkpointA version.number x := by
      by_contra hno
      exact hnear (hmeets.mp (fun x hx => hno ⟨x, hx⟩))
    obtain ⟨found, hcompose, hmem⟩ := exists_conflict hs'.chain hw' hf' hle' hexists
    rw [except_bind_of_ok hcompose] at hprepare
    obtain ⟨outcome, r'', hcommit, hcall⟩ :=
      exists_publishLayer hs' hi' hprepare (fun c hc => by cases hc)
    cases hcommit.world with
    | layerStale hplan => cases hplan
    | published composition' version' hplan _ => cases hplan
    | conflict paths hplan =>
        obtain rfl := Sum.inl.inj (Option.some.inj hplan)
        refine ⟨_, found.keys, r'', hcall, rfl, SortedMap.keys_nodup _, fun x => ?_⟩
        rw [SortedMap.mem_keys]
        refine (hmem x).trans (meets_iff.trans ?_)
        unfold Intersects
        rw [hbase, hflat]
        constructor
        · intro h
          obtain ⟨p, q, ⟨hp, hq, hne, hpq⟩, hx⟩ := h
          exact ⟨p, q, hp, (ha.untouched.ne_over_iff hdiff hp hq hpq).mp hne, hpq, hx⟩
        · intro h
          obtain ⟨p, q, hp, hq, hpq, hx⟩ := h
          have hnil : q ≠ [] := by
            rintro rfl
            exact hq checkpointB.changes.flat_nil
          exact ⟨p, q, ⟨hp, hnil, (ha.untouched.ne_over_iff hdiff hp hnil hpq).mpr hq, hpq⟩, hx⟩
  · cases hok : r'.publishLayer a guard (rounds + 1) with
    | error e => exact ⟨e, rfl⟩
    | ok done =>
        obtain ⟨receipt, r''⟩ := done
        obtain ⟨composed, hcompose⟩ := hcomposed hok
        rw [except_bind_of_ok hcompose] at hprepare
        obtain ⟨outcome, hcommit, rfl⟩ := of_publishLayer hs'.chain hprepare hok
        cases hcommit.world with
        | layerStale hplan => cases hplan
        | conflict paths _ => exact absurd hapart (hofConflict guard rounds _ paths r'' hok rfl)
        | published _ version' _ _ =>
            obtain ⟨_, hlow, hroom⟩ := hofPublished guard rounds _ version' r'' hok rfl
            cases hor with
            | inl htall => exact absurd htall hlow
            | inr hfull => exact absurd hroom (Nat.not_lt.mpr hfull)

end second

end Repository

namespace System

open Repository

/-- Two active Layers that each compose with the World on their own are published in both orders
alike: if the first order publishes both, so does the second, with the same snapshot and the same
tree; if it ends in a conflict for the second Layer, so does the other one. -/
theorem Reachable.publishes_commute {s : System Id} (h : Reachable s) {a b : PublishCall Id}
    {planA planB : Plan Id} {compositionA compositionB : Composition Id}
    (hprepareA : s.repository.prepareIn a = .ok (.advance planA))
    (hcomposedA : planA.composed = some (.inr compositionA))
    (hprepareB : s.repository.prepareIn b = .ok (.advance planB))
    (hcomposedB : planB.composed = some (.inr compositionB))
    (hlayer : a.expected.layer ≠ b.expected.layer) (hop : a.operation ≠ b.operation)
    {guardA guardB : Guard Id} (hguardA : ∀ world changes, guardA world changes = .ok ())
    (hguardB : ∀ world changes, guardB world changes = .ok ())
    {n : ℕ} {receiptA : PublicationReceipt Id} {r₁ : Repository Id} {versionA : WorldVersion Id}
    (hokA : s.repository.publishLayer a guardA (n + 1) = .ok (receiptA, r₁))
    (hpublishedA : receiptA.outcome = .published versionA)
    {m : ℕ} {receiptB : PublicationReceipt Id} {r₂ : Repository Id}
    (hokB : r₁.publishLayer b guardB (m + 1) = .ok (receiptB, r₂)) :
    ∃ firstB versionB r₁', (∀ k, s.repository.publishLayer b guardB (k + 1) = .ok (firstB, r₁')) ∧
      firstB.outcome = .published versionB ∧
      (∀ version, receiptB.outcome = .published version → ∃ secondA versionA' r₂' after,
        (∀ k, r₁'.publishLayer a guardA (k + 1) = .ok (secondA, r₂')) ∧
        secondA.outcome = .published versionA' ∧ versionA'.tree = version.tree ∧
        r₂.manifestAt version.number = .ok after ∧ r₂'.manifestAt versionA'.number = .ok after) ∧
      ∀ paths, receiptB.outcome = .conflict paths → ∃ secondA paths' r₂',
        (∀ k, r₁'.publishLayer a guardA (k + 1) = .ok (secondA, r₂')) ∧
        secondA.outcome = .conflict paths' := by
  obtain ⟨S, hs⟩ := h.sound.repository
  have hi := h.indexed
  obtain ⟨hfitsA, checkpointA, hA⟩ := hs.ready hprepareA hcomposedA
  obtain ⟨hfitsB, checkpointB, hB⟩ := hs.ready hprepareB hcomposedB
  have hhead : planB.against = planA.against := Option.some.inj (hB.head.symm.trans hA.head)
  rw [hhead] at hB
  -- The first order.
  obtain ⟨outcome, hcommitA, rfl⟩ := of_publishLayer hs.chain hprepareA hokA
  obtain rfl : outcome = .published versionA := hpublishedA
  obtain ⟨hl₁, S₁, hs₁⟩ := hcommitA.sound hfitsA hs
  have hi₁ := hcommitA.indexed hfitsA hi hs
  have hroom : planA.against.number < MAX_VERSION := by
    cases hcommitA.world with
    | published _ _ _ hp => exact hp.room
  obtain ⟨_, hnumberA, hflatA⟩ := hcommitA.snapshot hfitsA hs.chain hs₁.chain hA.frozen
  have hsecondB := hB.second hA hfitsA hs hcommitA hs₁ hi₁ hlayer hop
  -- The second order.
  obtain ⟨outcome, r₁', hcommitB, hcallB⟩ := exists_publishLayer hs hi hprepareB
    (fun c _ => ⟨hguardB _ _, hhead ▸ hroom⟩)
  obtain ⟨versionB, rfl⟩ : ∃ version, outcome = .published version := by
    cases hcommitB.world with
    | layerStale hplan => rw [hcomposedB] at hplan; cases hplan
    | conflict _ hplan => rw [hcomposedB] at hplan; cases hplan
    | published _ version => exact ⟨version, rfl⟩
  obtain ⟨hl₁', S₁', hs₁'⟩ := hcommitB.sound hfitsB hs
  have hi₁' := hcommitB.indexed hfitsB hi hs
  obtain ⟨_, hnumberB, hflatB⟩ := hcommitB.snapshot hfitsB hs.chain hs₁'.chain hB.frozen
  have hsecondA := hA.second hB hfitsB hs hcommitB hs₁' hi₁' hlayer.symm hop.symm
  refine ⟨_, versionB, r₁', hcallB, rfl, fun version hversion => ?_, fun paths hpaths => ?_⟩
  · obtain ⟨hapart, hlow, hroom'⟩ := hsecondB.of_published _ _ _ _ _ hokB hversion
    have hover : (S₁' versionB.number).flat.over checkpointA.changes.flat =
        (S₁ versionA.number).flat.over checkpointB.changes.flat := by
      rw [hflatA, hflatB, hhead]
      exact hapart.over_comm
    obtain ⟨receiptB', version', r₂', hcallB', hpublished', S₂, hs₂, hstored, hflat⟩ :=
      hsecondB.published hapart hlow hroom' guardB hguardB
    have hsame := Except.ok.inj ((hcallB' m).symm.trans hokB)
    obtain ⟨rfl, rfl⟩ := Prod.mk.inj hsame
    obtain rfl := PublishOutcome.published.inj (hpublished'.symm.trans hversion)
    obtain ⟨secondA, versionA', r₂'', hcallA', hpublishedA', S₂', hs₂', hstored', hflat'⟩ :=
      hsecondA.published hapart.symm (hover ▸ hlow) (by rw [hnumberB, hhead, ← hnumberA]; exact hroom')
        guardA hguardA
    have hsnapshots : S₂' versionA'.number = S₂ version'.number := by
      apply Manifest.flat_injective
      rw [hflat, hflat', hover]
    refine ⟨secondA, versionA', r₂'', _, hcallA', hpublishedA', ?_, hs₂.chain.manifestAt_eq hstored, ?_⟩
    · have htree := hs₂'.chain.tree _ _ hstored'
      rw [hsnapshots] at htree
      exact IsDir.unique htree (hs₂.chain.tree _ _ hstored)
    · rw [hs₂'.chain.manifestAt_eq hstored', hsnapshots]
  · have hnear := hsecondB.of_conflict _ _ _ _ _ hokB hpaths
    obtain ⟨secondA, paths', r₂', hcallA', hconflict, _⟩ :=
      hsecondA.conflict (fun hapart => hnear hapart.symm) guardA
    exact ⟨secondA, paths', r₂', hcallA', hconflict⟩

/-- A Layer stays active when another one is created. -/
theorem active_of_created {r r' : Repository Id} {S : VersionNumber → Manifest Id} {base : LayerBase Id}
    {layer : LayerId} {head head' : LayerHead Id} (hs : r.Sound S) (h : Created r layer base head' r')
    (hl : Later r r') (hlayer : layer ≠ head.layer)
    (hactive : r.layerStateIn head.layer = .ok (.active head)) :
    r'.layerStateIn head.layer = .ok (.active head) := by
  obtain ⟨⟨_, _, _, hopen⟩, _⟩ := hs.live_of_active hactive
  have hopen' : r'.successOf head.layer = none := by
    rw [successOf_congr h.publications]
    exact hopen
  rw [layerStateIn_of_open hopen] at hactive
  rw [layerStateIn_of_open hopen']
  unfold Repository.latestEventStateIn latestIn at hactive ⊢
  rw [h.others _ hlayer, hl.identity]
  exact hactive

/-- A new Layer composes with the World of a repository without publications. -/
theorem exists_prepared {r : Repository Id} {S : VersionNumber → Manifest Id} (hs : r.Sound S)
    (hi : Indexed r) {op : OperationId} {head : LayerHead Id} {world : WorldVersion Id}
    (hunused : r.publications.get? op = none) (hunowned : r.attempts.get? op = none)
    (hactive : r.layerStateIn head.layer = .ok (.active head))
    (hhead : r.versions.getLast? = some world) (hroom : world.number < MAX_VERSION)
    {checkpoint : LayerCheckpoint Id} (hread : r.checkpointIn head.checkpoint = .ok checkpoint)
    (hchanges : checkpoint.changes = SparseChanges.empty)
    (hbase : checkpoint.base.version ≤ world.number) : ∃ plan composition,
      r.prepareIn ⟨op, head, .human⟩ = .ok (.advance plan) ∧ plan.composed = some (.inr composition) := by
  obtain ⟨plan, version, r', hprepare, _, hcommitted⟩ : ∃ plan version r',
      r.prepareIn ⟨op, head, .human⟩ = .ok (.advance plan) ∧
      r.commitIn ⟨op, head, .human⟩ plan allow =
        .ok (some (PublishCall.receipt ⟨op, head, .human⟩ plan (.published version), r')) ∧
      Committed r ⟨op, head, .human⟩ plan (.published version) r' :=
    exists_publish_unchanged hs hi hunused hunowned hactive rfl rfl hhead hread hchanges hbase rfl hroom
  cases hcommitted.world with
  | published composition _ hcomposed _ => exact ⟨plan, composition, hprepare, hcomposed⟩

/-- Two new Layers of a new repository, each ready to be published. -/
theorem exists_two_prepared (identity : Id) (layer layer' : LayerId) (op op' : OperationId)
    (hne : layer' ≠ layer) : ∃ (r : Repository Id) (a b : PublishCall Id) (planA planB : Plan Id)
      (compositionA compositionB : Composition Id), Reachable ⟨r, []⟩ ∧ a.operation = op ∧
      b.operation = op' ∧ a.expected.layer = layer ∧ b.expected.layer = layer' ∧
      r.prepareIn a = .ok (.advance planA) ∧ planA.composed = some (.inr compositionA) ∧
      r.prepareIn b = .ok (.advance planB) ∧ planB.composed = some (.inr compositionB) ∧
      planB.against.number = 0 ∧ ∃ checkpoint, r.checkpointIn b.expected.checkpoint = .ok checkpoint ∧
        checkpoint.changes = SparseChanges.empty := by
  obtain ⟨head, r₁, hcreated, hreach₁⟩ := exists_created identity layer
  obtain ⟨S₁, hs₁⟩ := hreach₁.sound.repository
  have hbase : r₁.validateBase ⟨r₁.identity, 0, versionId none emptyId SparseChanges.empty⟩ = .ok () :=
    (validateBase_eq_ok hs₁.chain).mpr ⟨rfl, _, hs₁.chain.first, rfl⟩
  have hempty : ∀ n, (r₁.events layer').get? n = none := by
    intro n
    rw [hcreated.others layer' hne.symm]
    rfl
  obtain ⟨head', r₂, hcreated'⟩ := exists_createLayer hs₁ hbase hempty
  have hstep : Run (⟨r₁, []⟩ : System Id) ⟨r₂, []⟩ := .single (.transact (.createLayer hcreated'.created))
  have hreach₂ := hreach₁.run hstep
  obtain ⟨hl, _⟩ := hstep.later hreach₁.sound
  obtain ⟨S₂, hs₂⟩ := hreach₂.sound.repository
  obtain ⟨checkpoint, hread, hbase₁, hchanges⟩ := hcreated.unchanged
  obtain ⟨checkpoint', hread', hbase₂, hchanges'⟩ := hcreated'.unchanged
  have hversions : r₂.versions = (Repository.initial identity).versions :=
    hcreated'.versions.trans hcreated.versions
  have hpubs : r₂.publications = SortedMap.empty := hcreated'.publications.trans hcreated.publications
  have hattempts : r₂.attempts = SortedMap.empty := hcreated'.attempts.trans hcreated.attempts
  have hunused : ∀ op, r₂.publications.get? op = none := fun op => by
    rw [hpubs]
    rfl
  have hunowned : ∀ op, r₂.attempts.get? op = none := fun op => by
    rw [hattempts]
    rfl
  have hhead : r₂.versions.getLast? =
      some ⟨0, versionId none emptyId SparseChanges.empty, emptyId, none⟩ := by
    rw [hversions]
    rfl
  have hroom : (⟨0, versionId none emptyId SparseChanges.empty, emptyId, none⟩ :
      WorldVersion Id).number < MAX_VERSION := Nat.sub_pos_of_lt (Nat.one_lt_two_pow (by decide))
  have hactive : r₁.layerStateIn head.layer = .ok (.active head) := by
    rw [hcreated.named]
    exact hcreated.active
  have hactive₂ := active_of_created hs₁ hcreated' hl (hcreated.named.symm ▸ hne) hactive
  have hactive₂' : r₂.layerStateIn head'.layer = .ok (.active head') := by
    rw [hcreated'.named]
    exact hcreated'.active
  obtain ⟨planA, compositionA, hprepareA, hcomposedA⟩ := exists_prepared hs₂ hreach₂.indexed (hunused op)
    (hunowned op) hactive₂ hhead hroom (hl.checkpointIn hs₁.chain hs₂.chain _ _ hread) hchanges
    (by rw [hbase₁])
  obtain ⟨planB, compositionB, hprepareB, hcomposedB⟩ := exists_prepared hs₂ hreach₂.indexed (hunused op')
    (hunowned op') hactive₂' hhead hroom hread' hchanges' (by rw [hbase₂])
  have hagainst := hs₂.chain.headIn_eq_ok.mp (of_prepareIn hprepareB).2.2.2.2.1
  refine ⟨r₂, _, _, planA, planB, compositionA, compositionB, hreach₂, rfl, rfl, hcreated.named,
    hcreated'.named, hprepareA, hcomposedA, hprepareB, hcomposedB, ?_, checkpoint', hread', hchanges'⟩
  rw [← Option.some.inj (hhead.symm.trans hagainst)]

/-- Two new Layers of a numbered repository, published in both orders. -/
theorem publishes_commute_created : ∃ (r r₁ r₁' r₂ r₂' : Repository ℕ) (a b : PublishCall ℕ)
    (receiptA receiptB firstB secondA : PublicationReceipt ℕ) (version version' : WorldVersion ℕ),
    r.publishLayer a allow 1 = .ok (receiptA, r₁) ∧ r₁.publishLayer b allow 1 = .ok (receiptB, r₂) ∧
      r.publishLayer b allow 1 = .ok (firstB, r₁') ∧ r₁'.publishLayer a allow 1 = .ok (secondA, r₂') ∧
      receiptB.outcome = .published version ∧ secondA.outcome = .published version' ∧
      version'.tree = version.tree := by
  have hallow : ∀ (world : WorldVersion ℕ) changes, allow world changes = .ok () := fun _ _ => rfl
  obtain ⟨r, a, b, planA, planB, compositionA, compositionB, hreach, ha, hb, hlayerA, hlayerB, hprepareA,
    hcomposedA, hprepareB, hcomposedB, hzero, checkpoint, hread, hchanges⟩ :=
    exists_two_prepared (0 : ℕ) ⟨[97]⟩ ⟨[98]⟩ ⟨[49]⟩ ⟨[50]⟩ (by decide)
  have hlayer : a.expected.layer ≠ b.expected.layer := by
    rw [hlayerA, hlayerB]
    decide
  have hop : a.operation ≠ b.operation := by
    rw [ha, hb]
    decide
  obtain ⟨S, hs⟩ := hreach.sound.repository
  obtain ⟨hfitsA, checkpointA, hA⟩ := hs.ready hprepareA hcomposedA
  obtain ⟨hfitsB, checkpointB, hB⟩ := hs.ready hprepareB hcomposedB
  have hhead : planB.against = planA.against := Option.some.inj (hB.head.symm.trans hA.head)
  rw [hhead] at hB
  have hempty : checkpointB.changes = SparseChanges.empty := by
    have hread' := (checkpointIn_eq_ok hs.chain).mpr hB.frozen
    rw [hread] at hread'
    rw [← Except.ok.inj hread']
    exact hchanges
  have hroom : 1 < MAX_VERSION := by
    unfold MAX_VERSION
    omega
  -- The first publication, and with it what the second one comes to.
  have hgo : ∀ composition, planA.composed = some (.inr composition) →
      (allow : Guard ℕ) planA.against composition.changes = .ok () ∧ planA.against.number < MAX_VERSION := by
    intro composition _
    refine ⟨rfl, ?_⟩
    rw [← hhead, hzero]
    exact Nat.lt_of_succ_lt hroom
  obtain ⟨outcome, r₁, hcommit, hcallA⟩ := exists_publishLayer hs hreach.indexed hprepareA hgo
  obtain ⟨versionA, rfl⟩ : ∃ version, outcome = .published version := by
    cases hcommit.world with
    | layerStale hplan => rw [hcomposedA] at hplan; cases hplan
    | conflict _ hplan => rw [hcomposedA] at hplan; cases hplan
    | published _ version => exact ⟨version, rfl⟩
  obtain ⟨_, S₁, hs₁⟩ := hcommit.sound hfitsA hs
  obtain ⟨hlast, hnumber, _⟩ := hcommit.snapshot hfitsA hs.chain hs₁.chain hA.frozen
  have hsecond := hB.second hA hfitsA hs hcommit hs₁ (hcommit.indexed hfitsA hreach.indexed hs) hlayer hop
  have hapart : Flat.Apart checkpointB.changes.flat checkpointA.changes.flat := by
    rw [hempty]
    exact fun _ _ hp => absurd rfl hp
  have hlow : ¬ TooTall MAX_DEPTH ((S₁ versionA.number).flat.over checkpointB.changes.flat) := by
    rw [hempty]
    exact (hs₁.chain.tree _ _ (hs₁.chain.getElem?_of_head hlast).1).not_tooTall
  obtain ⟨receiptB, version, r₂, hcallB, hpublished, _⟩ := hsecond.published hapart hlow
    (by rw [hnumber, ← hhead, hzero]; exact hroom) allow hallow
  obtain ⟨firstB, versionB, r₁', hfirst, _, hboth, _⟩ := hreach.publishes_commute hprepareA hcomposedA
    hprepareB hcomposedB hlayer hop hallow hallow (hcallA 0) rfl (hcallB 0)
  obtain ⟨secondA, version', r₂', _, hsecondA, hpublished', htree, _⟩ := hboth version hpublished
  exact ⟨r, r₁, r₁', r₂, r₂', a, b, _, receiptB, firstB, secondA, version, version', hcallA 0, hcallB 0,
    hfirst 0, hsecondA 0, hpublished, hpublished', htree⟩

end System

end Javelin
