import Javelin.Attribution

/-! # The indexes

`Indexed r` is what every reachable repository satisfies of its two indexes: the tracked paths of a
live Layer are its attribution, a Layer that is not live has none (`Tracks`), and the blame of a
published version is the Layer's attribution at publication (`Blamed`).  Every transaction keeps it;
the state at the end of any run is `Reachable.indexed`. -/

namespace Javelin

open KeyedList

variable {Id : Type} [LinearOrder Id] [Encoding Id]

namespace Repository
variable {r r' : Repository Id} {S S' : VersionNumber → Manifest Id}

/-! ### The fold -/

omit [Encoding Id] in
theorem origin_entry {before : Option (Tracked Id)} {id : Id} {provenance : Option Id}
    {entry : Option (FileEntry Id)} : (origin before id provenance entry).entry = entry := by
  unfold origin
  split
  · split
    · assumption
    · rfl
  · rfl

omit [Encoding Id] in
theorem attributionIn_zero {read : Id → Except (Error Id) (LayerCheckpoint Id)} {layer : LayerId} :
    r.attributionIn read layer 0 = r.attributeRevision read layer SortedMap.empty 0 := by
  unfold attributionIn
  simp [List.range_succ]

omit [Encoding Id] in
theorem attributionIn_succ {read : Id → Except (Error Id) (LayerCheckpoint Id)} {layer : LayerId}
    {n : ℕ} : r.attributionIn read layer (n + 1) =
      r.attributionIn read layer n >>= fun a => r.attributeRevision read layer a (n + 1) := by
  unfold attributionIn
  rw [List.range_succ, List.foldlM_append]
  simp

omit [Encoding Id] in
theorem attributeRevision_eq_ok {read : Id → Except (Error Id) (LayerCheckpoint Id)} {layer : LayerId}
    {n : ℕ} {a b : SortedMap RepoPath (Tracked Id)} :
    r.attributeRevision read layer a n = .ok b ↔ ∃ e checkpoint, (r.events layer).get? n = some e ∧
      read e.checkpoint = .ok checkpoint ∧ b = attributeHead a checkpoint := by
  unfold attributeRevision
  simp only [except_bind_eq_ok, eventIn_eq_ok]
  constructor
  · rintro ⟨e, he, checkpoint, hread, hpure⟩
    exact ⟨e, checkpoint, he, hread, (Except.ok.inj hpure).symm⟩
  · rintro ⟨e, checkpoint, he, hread, rfl⟩
    exact ⟨e, he, checkpoint, hread, rfl⟩

omit [Encoding Id] in
/-- The last step of the fold. -/
theorem of_attributionIn {read : Id → Except (Error Id) (LayerCheckpoint Id)} {layer : LayerId}
    {n : ℕ} {b : SortedMap RepoPath (Tracked Id)} (hok : r.attributionIn read layer n = .ok b) :
    ∃ a e checkpoint, (r.events layer).get? n = some e ∧ read e.checkpoint = .ok checkpoint ∧
      b = attributeHead a checkpoint := by
  cases n with
  | zero =>
      rw [attributionIn_zero, attributeRevision_eq_ok] at hok
      exact ⟨_, hok⟩
  | succ n =>
      rw [attributionIn_succ, except_bind_eq_ok] at hok
      obtain ⟨a, _, hlast⟩ := hok
      exact ⟨a, attributeRevision_eq_ok.mp hlast⟩

/-- The attribution of a history stays. -/
theorem Later.attributionIn (h : Later r r') (hc : Chain r S) (hc' : Chain r' S') (layer : LayerId)
    (n : ℕ) : Stable (r.attributionIn r.checkpointIn layer n) (r'.attributionIn r'.checkpointIn layer n) := by
  have hstep : ∀ a m, Stable (r.attributeRevision r.checkpointIn layer a m)
      (r'.attributeRevision r'.checkpointIn layer a m) := fun a m =>
    (h.eventIn layer m).bind (fun _ _ => (h.checkpointIn hc hc' _).bind (fun _ _ => .refl _))
  induction n with
  | zero =>
      rw [attributionIn_zero, attributionIn_zero]
      exact hstep _ _
  | succ n ih =>
      rw [attributionIn_succ, attributionIn_succ]
      exact ih.bind (fun a _ => hstep a _)

/-! ### The invariant -/

/-- The Layer's latest event, at revision `n`, is no discard, and it is not published. -/
def Live (r : Repository Id) (layer : LayerId) (n : ℕ) : Prop :=
  ∃ e, r.latestIn layer = .ok (n, e) ∧ e.discarded = false ∧ r.successOf layer = none

/-- The index holds the attribution of a live Layer, and nothing of another. -/
structure Tracks (r : Repository Id) (layer : LayerId) : Prop where
  live : ∀ n, Live r layer n → r.attributionIn r.checkpointIn layer n = .ok (r.trackedIn layer)
  dead : (∀ n, ¬ Live r layer n) → r.trackedIn layer = SortedMap.empty

/-- Blame rows that say what an attribution says. -/
def BlamedAs (rows : SortedMap RepoPath (BlameRow Id)) (attribution : SortedMap RepoPath (Tracked Id)) :
    Prop := ∀ p, rows.get? p = (attribution.get? p).map (fun t => ⟨t.checkpoint, t.provenance⟩)

/-- The blame of the published versions is the attribution at publication. -/
structure Blamed (r : Repository Id) : Prop where
  published : ∀ op row n, r.publications.get? op = some row → row.outcome = .published →
    row.result = some n → ∃ attribution rows,
      r.attributionIn r.checkpointIn row.layer row.expected = .ok attribution ∧
      r.blame.get? n = some rows ∧ BlamedAs rows attribution
  only : ∀ n rows, r.blame.get? n = some rows → ∃ op row, r.publications.get? op = some row ∧
    row.outcome = .published ∧ row.result = some n

/-- Both indexes match the history. -/
structure Indexed (r : Repository Id) : Prop where
  tracks : ∀ layer, Tracks r layer
  blamed : Blamed r

omit [LinearOrder Id] [Encoding Id] in
theorem successOf_congr {layer : LayerId} (h : r'.publications = r.publications) :
    r'.successOf layer = r.successOf layer := by
  unfold successOf
  rw [h]

omit [LinearOrder Id] [Encoding Id] in
theorem live_congr {layer : LayerId} {n : ℕ} (he : r'.events layer = r.events layer)
    (hsucc : r'.successOf layer = none ↔ r.successOf layer = none) : Live r' layer n ↔ Live r layer n := by
  unfold Live latestIn
  rw [he, hsucc]

/-- A Layer that no write concerned is tracked as before. -/
theorem Tracks.later {layer : LayerId} (ht : Tracks r layer) (h : Later r r') (hc : Chain r S)
    (hc' : Chain r' S') (he : r'.events layer = r.events layer)
    (htracked : r'.trackedIn layer = r.trackedIn layer)
    (hsucc : r'.successOf layer = none ↔ r.successOf layer = none) : Tracks r' layer where
  live n hlive := by
    rw [htracked]
    exact h.attributionIn hc hc' layer n _ (ht.live n ((live_congr he hsucc).mp hlive))
  dead hno := by
    rw [htracked]
    exact ht.dead (fun n hlive => hno n ((live_congr he hsucc).mpr hlive))

/-- Blame stays when no success was added. -/
theorem Blamed.later (hb : Blamed r) (h : Later r r') (hc : Chain r S) (hc' : Chain r' S')
    (hblame : r'.blame = r.blame)
    (hsuccess : ∀ op row, r'.publications.get? op = some row → row.outcome = .published →
      r.publications.get? op = some row) : Blamed r' where
  published op row n hrow htag hn := by
    obtain ⟨attribution, rows, hatt, hget, has⟩ :=
      hb.published op row n (hsuccess op row hrow htag) htag hn
    exact ⟨attribution, rows, h.attributionIn hc hc' _ _ _ hatt, hblame ▸ hget, has⟩
  only n rows hget := by
    rw [hblame] at hget
    obtain ⟨op, row, hrow, hrest⟩ := hb.only n rows hget
    exact ⟨op, row, h.publications op row hrow, hrest⟩

/-- A write that leaves events, publications and both indexes keeps them. -/
theorem Indexed.keep (hi : Indexed r) (h : Later r r') (hc : Chain r S) (hc' : Chain r' S')
    (hheads : r'.layerHeads = r.layerHeads) (hpaths : r'.layerPaths = r.layerPaths)
    (hblame : r'.blame = r.blame) (hpubs : r'.publications = r.publications) : Indexed r' where
  tracks layer := by
    apply (hi.tracks layer).later h hc hc'
    · unfold events
      rw [hheads]
    · unfold trackedIn
      rw [hpaths]
    · rw [successOf_congr hpubs]
  blamed := by
    apply hi.blamed.later h hc hc' hblame
    rw [hpubs]
    exact fun _ _ hrow _ => hrow

/-! ### Creating and updating -/

/-- The checkpoint under an ID is the stored one. -/
theorem Frozen.eq_stored {id : Id} {checkpoint : LayerCheckpoint Id}
    (hf : Frozen r S id checkpoint) {encoded : EncodedCheckpoint Id}
    (hstored : r.objects.readCheckpoint id = .ok encoded) :
    checkpoint.id = id ∧ checkpoint.changes = encoded.changes ∧
      checkpoint.provenance = encoded.provenance := by
  have hsame := Except.ok.inj (hf.stored.symm.trans hstored)
  exact ⟨hf.named, congrArg EncodedCheckpoint.changes hsame, congrArg EncodedCheckpoint.provenance hsame⟩

omit [Encoding Id] in
theorem attributeHead_eq_trackIn {layer : LayerId} {candidate : LayerCandidate Id}
    {checkpoint : LayerCheckpoint Id} (hid : checkpoint.id = candidate.id)
    (hchanges : checkpoint.changes = candidate.changes)
    (hprov : checkpoint.provenance = candidate.provenance) :
    attributeHead (r.trackedIn layer) checkpoint = (r.trackIn layer candidate).trackedIn layer := by
  apply SortedMap.ext
  intro p
  rw [get?_attributeHead, get?_trackedIn_trackIn, if_pos rfl, hid, hchanges, hprov]

/-- A new Layer is tracked. -/
theorem created_indexed (hi : Indexed r) (hs : Sound r S) {layer : LayerId}
    {candidate : LayerCandidate Id} (hempty : ∀ n, (r.events layer).get? n = none)
    {checkpoint : LayerCheckpoint Id} (hf : Frozen r S candidate.id checkpoint)
    (hchanges : checkpoint.changes = candidate.changes)
    (hprov : checkpoint.provenance = candidate.provenance) :
    Indexed ((r.putEvent layer 0 ⟨candidate.id, false, none⟩).trackIn layer candidate) := by
  obtain ⟨hl, hs'⟩ := created_sound hs hempty hf
  have hnone : r.trackedIn layer = SortedMap.empty := by
    apply (hi.tracks layer).dead
    rintro n ⟨e, hlatest, _⟩
    have he := (latestIn_eq_ok.mp hlatest).1
    rw [hempty] at he
    cases he
  have hevents : ∀ layer', ((r.putEvent layer 0 ⟨candidate.id, false, none⟩).trackIn layer
      candidate).events layer' = if layer = layer' then
        (r.events layer').insert 0 ⟨candidate.id, false, none⟩ else r.events layer' :=
    fun _ => events_putEvent
  have htracked : ∀ layer', ((r.putEvent layer 0 ⟨candidate.id, false, none⟩).trackIn layer
      candidate).trackedIn layer' = (r.trackIn layer candidate).trackedIn layer' := fun _ => rfl
  have hpubs : ((r.putEvent layer 0 ⟨candidate.id, false, none⟩).trackIn layer
      candidate).publications = r.publications := rfl
  have hblame : ((r.putEvent layer 0 ⟨candidate.id, false, none⟩).trackIn layer
      candidate).blame = r.blame := rfl
  generalize (r.putEvent layer 0 ⟨candidate.id, false, none⟩).trackIn layer candidate = r' at *
  refine ⟨fun layer' => ?_, ?_⟩
  · by_cases hlayer : layer = layer'
    · subst hlayer
      have hfirst : (r'.events layer).get? 0 = some ⟨candidate.id, false, none⟩ := by
        rw [hevents, if_pos rfl, SortedMap.get?_insert, if_pos rfl]
      have hone : ∀ n e, (r'.events layer).get? n = some e → n = 0 := by
        intro n e he
        by_contra hn
        rw [hevents, if_pos rfl, SortedMap.get?_insert, if_neg (Ne.symm hn), hempty] at he
        cases he
      have hlive : Live r' layer 0 := by
        refine ⟨_, latestIn_eq_ok.mpr ⟨hfirst, fun m e he => (hone m e he).le⟩, rfl, ?_⟩
        rw [successOf_congr hpubs]
        exact hs.successOf_of_empty hempty
      refine ⟨?_, fun hno => absurd hlive (hno 0)⟩
      rintro n ⟨e, hlatest, _⟩
      obtain rfl := hone n e (latestIn_eq_ok.mp hlatest).1
      rw [attributionIn_zero, attributeRevision_eq_ok]
      refine ⟨_, checkpoint, hfirst, ?_, ?_⟩
      · exact (checkpointIn_eq_ok hs'.chain).mpr (hf.later hl hs.chain hs'.chain)
      · rw [htracked, ← attributeHead_eq_trackIn hf.named hchanges hprov, hnone]
    · apply (hi.tracks layer').later hl hs.chain hs'.chain
      · rw [hevents, if_neg hlayer]
      · rw [htracked]
        apply SortedMap.ext
        intro p
        rw [get?_trackedIn_trackIn, if_neg hlayer]
      · rw [successOf_congr hpubs]
  · apply hi.blamed.later hl hs.chain hs'.chain hblame
    rw [hpubs]
    exact fun _ _ hrow _ => hrow

section recorded
variable {op : OperationId} {u : Update Id} {outcome : LayerUpdate Id} {revision result : ℕ}
  {current : Event Id} {accepted : Bool}

/-- A recorded operation keeps the indexes, if its candidate is stored as it says. -/
theorem Recorded.indexed (h : Recorded r op u outcome revision current accepted result r')
    (hi : Indexed r) (hs : Sound r S) (hopen : r.successOf u.expected.layer = none)
    (hstored : u.discard = false → ∃ base sources, r.objects.readCheckpoint u.candidate.id =
      .ok ⟨base, u.candidate.changes, sources, u.candidate.provenance⟩) : Indexed r' := by
  have hl := h.later hopen
  have hs' := h.sound hs hl
  obtain ⟨hcurrent, hmax⟩ := latestIn_eq_ok.mp h.latest
  refine ⟨fun layer => ?_, ?_⟩
  · by_cases hacc : accepted = true ∧ u.expected.layer = layer
    · obtain ⟨hacc, rfl⟩ := hacc
      obtain ⟨_, hlive⟩ := h.decided.mp hacc
      have hresult : result = revision + 1 := by rw [h.advanced, if_pos hacc]
      subst hresult
      have hnew : (r'.events u.expected.layer).get? (revision + 1) =
          some ⟨u.candidate.id, u.discard, some op⟩ := by
        rw [h.events, if_pos ⟨hacc, rfl⟩, SortedMap.get?_insert, if_pos rfl]
      have hlatest : r'.latestIn u.expected.layer =
          .ok (revision + 1, ⟨u.candidate.id, u.discard, some op⟩) := by
        rw [latestIn_eq_ok]
        refine ⟨hnew, fun m e he => ?_⟩
        rw [h.events, if_pos ⟨hacc, rfl⟩, SortedMap.get?_insert] at he
        by_cases hm : revision + 1 = m
        · exact hm.symm.le
        · rw [if_neg hm] at he
          exact Nat.le_succ_of_le (hmax m e he)
      have hpaths := h.layerPaths
      rw [if_pos hacc] at hpaths
      cases hdiscard : u.discard with
      | true =>
          have hnone : r'.trackedIn u.expected.layer = SortedMap.empty := by
            unfold trackedIn
            rw [hpaths, if_pos hdiscard, SortedMap.get?_erase, if_pos rfl]
            rfl
          refine ⟨?_, fun _ => hnone⟩
          rintro n ⟨e, hlatest', hlive', _⟩
          obtain ⟨_, rfl⟩ := Prod.mk.inj (Except.ok.inj (hlatest'.symm.trans hlatest))
          rw [show (⟨u.candidate.id, u.discard, some op⟩ : Event Id).discarded = u.discard from rfl,
            hdiscard] at hlive'
          cases hlive'
      | false =>
          rw [if_neg (by simp [hdiscard])] at hpaths
          have hlive' : Live r' u.expected.layer (revision + 1) :=
            ⟨_, hlatest, hdiscard, by rw [successOf_congr h.only.publications]; exact hopen⟩
          refine ⟨?_, fun hno => absurd hlive' (hno _)⟩
          rintro n ⟨e, hn, _⟩
          obtain ⟨rfl, _⟩ := Prod.mk.inj (Except.ok.inj (hn.symm.trans hlatest))
          -- The checkpoint that the outcome was verified with is the candidate.
          obtain ⟨a, _, _, checkpoint, _, hv⟩ := of_layerOutcome h.outcome
          have hattempt : r'.layerAttempts.get? op = some (u.attempt accepted (revision + 1)) := by
            rw [h.layerAttempts, SortedMap.get?_insert, if_pos rfl]
          obtain rfl := Option.some.inj (hattempt.symm.trans hv.attempt)
          have hf := (checkpointIn_eq_ok hs'.chain).mp hv.checkpoint
          obtain ⟨base, sources, hread⟩ := hstored hdiscard
          obtain ⟨hid, hchanges, hprov⟩ := hf.eq_stored (hl.objects.readCheckpoint _ _ hread)
          have hold := hl.attributionIn hs.chain hs'.chain _ _ _
            ((hi.tracks u.expected.layer).live revision ⟨current, h.latest, hlive, hopen⟩)
          rw [attributionIn_succ, except_bind_of_ok hold, attributeRevision_eq_ok]
          refine ⟨_, checkpoint, hnew, hv.checkpoint, ?_⟩
          rw [attributeHead_eq_trackIn hid hchanges hprov]
          unfold trackedIn
          rw [hpaths]
    · apply (hi.tracks layer).later hl hs.chain hs'.chain
      · rw [h.events, if_neg hacc]
      · unfold trackedIn
        rw [h.layerPaths]
        by_cases hacc' : accepted = true
        · have hlayer : u.expected.layer ≠ layer := fun he => hacc ⟨hacc', he⟩
          rw [if_pos hacc']
          by_cases hdiscard : u.discard = true
          · rw [if_pos hdiscard, SortedMap.get?_erase, if_neg hlayer]
          · rw [if_neg hdiscard]
            show (r.trackIn u.expected.layer u.candidate).trackedIn layer = r.trackedIn layer
            apply SortedMap.ext
            intro p
            rw [get?_trackedIn_trackIn, if_neg hlayer]
        · rw [if_neg hacc']
      · rw [successOf_congr h.only.publications]
  · apply hi.blamed.later hl hs.chain hs'.chain h.blame
    rw [h.only.publications]
    exact fun _ _ hrow _ => hrow

end recorded

/-! ### Committing -/

omit [LinearOrder Id] [Encoding Id] in
/-- The blame rows of a list of tracked paths. -/
theorem get?_blameRows {tracked : SortedMap RepoPath (Tracked Id)} {l : List RepoPath}
    {rows₀ rows : SortedMap RepoPath (BlameRow Id)}
    (hok : l.foldlM (blameRow tracked) rows₀ = .ok rows) (p : RepoPath) :
    rows.get? p = if p ∈ l then (tracked.get? p).map (fun t => ⟨t.checkpoint, t.provenance⟩)
      else rows₀.get? p := by
  induction l generalizing rows₀ with
  | nil =>
      obtain rfl := Except.ok.inj hok
      simp
  | cons a l ih =>
      rw [List.foldlM_cons, except_bind_eq_ok] at hok
      obtain ⟨rows₁, hfirst, hrest⟩ := hok
      unfold blameRow at hfirst
      cases ht : tracked.get? a with
      | none =>
          rw [ht] at hfirst
          cases hfirst
      | some t =>
          rw [ht] at hfirst
          obtain rfl := Except.ok.inj hfirst
          rw [ih hrest, SortedMap.get?_insert]
          by_cases hp : p ∈ l
          · simp [hp]
          · by_cases ha : a = p
            · subst ha
              simp [hp, ht]
            · simp [hp, ha, Ne.symm ha]

section committed
variable {call : PublishCall Id} {plan : Plan Id} {outcome : PublishOutcome Id}

/-- Only the published Layer gets a success. -/
theorem Committed.successOf (h : Committed r call plan outcome r') (hfits : Fits r S call plan)
    {layer : LayerId} (hno : ∀ version, outcome = .published version → call.expected.layer ≠ layer) :
    r'.successOf layer = none ↔ r.successOf layer = none := by
  obtain ⟨blob, hpubs, _⟩ := h.publications
  rw [successOf_eq_none, successOf_eq_none, hpubs]
  constructor
  · intro hnone op row hrow
    apply hnone op row
    rw [SortedMap.get?_insert, if_neg]
    · exact hrow
    · rintro rfl
      rw [hfits.unused] at hrow
      cases hrow
  · intro hnone op row hrow hlayer htag
    rw [SortedMap.get?_insert] at hrow
    by_cases hop : call.operation = op
    · rw [if_pos hop] at hrow
      obtain rfl := Option.some.inj hrow
      obtain ⟨version, hout⟩ := tag_eq_published.mp htag
      exact hno version hout hlayer
    · rw [if_neg hop] at hrow
      exact hnone op row hrow hlayer htag

/-- The Layer of a success is tracked at the head that is published. -/
theorem Fits.tracked (hfits : Fits r S call plan) (hi : Indexed r) (hs : Sound r S)
    {composition : Composition Id} (hcomposed : plan.composed = some (.inr composition)) :
    r.attributionIn r.checkpointIn call.expected.layer call.expected.revision =
        .ok (r.trackedIn call.expected.layer) ∧
      ∀ p, p ∉ composition.changes.entries.keys →
        (r.trackedIn call.expected.layer).get? p = none := by
  have hactive := hfits.active (by rw [hcomposed]; simp)
  have hobs := hs.observes hfits.actual
  rw [hactive] at hobs
  obtain ⟨n, e, hlatest, hn⟩ := hobs.latest
  obtain rfl : call.expected.revision = n := hn
  obtain ⟨hopen, _⟩ := hobs.observed rfl
  obtain ⟨e', he', hlive, hexpected⟩ := layerHeadIn_eq_ok.mp hfits.expected
  obtain rfl := Option.some.inj ((latestIn_eq_ok.mp hlatest).1.symm.trans he')
  have hatt := (hi.tracks call.expected.layer).live _ ⟨e, hlatest, hlive, hopen⟩
  refine ⟨hatt, fun p hp => ?_⟩
  obtain ⟨a, e'', checkpoint, he'', hread, heq⟩ := of_attributionIn hatt
  obtain rfl := Option.some.inj (he''.symm.trans he')
  obtain ⟨_, checkpoint', hf', hcomp⟩ := hfits.composition composition hcomposed
  have hsame : e''.checkpoint = call.expected.checkpoint := by rw [hexpected]
  rw [hsame] at hread
  obtain rfl := Except.ok.inj (hread.symm.trans ((checkpointIn_eq_ok hs.chain).mpr hf'))
  rw [hcomp.changes, SortedMap.mem_keys, Bool.not_eq_true, Option.isSome_eq_false_iff,
    Option.isNone_iff_eq_none] at hp
  rw [heq, get?_attributeHead, hp]
  rfl

theorem Committed.indexed (h : Committed r call plan outcome r') (hfits : Fits r S call plan)
    (hi : Indexed r) (hs : Sound r S) : Indexed r' := by
  obtain ⟨hl, S', hs'⟩ := h.sound hfits hs
  obtain ⟨blob, hpubs, _⟩ := h.publications
  obtain ⟨_, hlen⟩ := hs.chain.getElem?_of_head hfits.head
  have hevents := h.only.events
  have hsucc := fun layer => @Committed.successOf _ _ _ r r' S call plan outcome h hfits layer
  have hquiet : outcome.tag ≠ .published → r'.layerPaths = r.layerPaths → r'.blame = r.blame →
      Indexed r' := by
    intro htag hpaths hblame
    refine ⟨fun layer => ?_, ?_⟩
    · apply (hi.tracks layer).later hl hs.chain hs'.chain (hevents layer)
      · unfold trackedIn
        rw [hpaths]
      · apply hsucc layer
        exact fun version hout => absurd (tag_eq_published.mpr ⟨version, hout⟩) htag
    · apply hi.blamed.later hl hs.chain hs'.chain hblame
      intro op row hrow htag'
      rw [hpubs, SortedMap.get?_insert] at hrow
      by_cases hop : call.operation = op
      · rw [if_pos hop] at hrow
        obtain rfl := Option.some.inj hrow
        exact absurd htag' htag
      · rwa [if_neg hop] at hrow
  cases h.world with
  | layerStale _ _ _ _ hpaths hblame => exact hquiet (by simp [PublishOutcome.tag]) hpaths hblame
  | conflict _ _ _ _ _ hpaths hblame => exact hquiet (by simp [PublishOutcome.tag]) hpaths hblame
  | published composition version hcomposed hp =>
      have hnew : r'.publications.get? call.operation =
          some (call.row plan (.published version) blob) := by
        rw [hpubs, SortedMap.get?_insert, if_pos rfl]
      have hnumber : version.number = plan.against.number + 1 := by
        rw [hp.version_eq]
        rfl
      obtain ⟨rows, hrows, hblame⟩ := hp.blame
      obtain ⟨hatt, habsent⟩ := hfits.tracked hi hs hcomposed
      refine ⟨fun layer => ?_, ⟨?_, ?_⟩⟩
      · by_cases hlayer : call.expected.layer = layer
        · subst hlayer
          refine ⟨?_, fun _ => ?_⟩
          · rintro n ⟨_, _, _, hnone⟩
            exact absurd rfl (successOf_eq_none.mp hnone _ _ hnew rfl)
          · unfold trackedIn
            rw [hp.layerPaths, SortedMap.get?_erase, if_pos rfl]
            rfl
        · apply (hi.tracks layer).later hl hs.chain hs'.chain (hevents layer)
          · unfold trackedIn
            rw [hp.layerPaths, SortedMap.get?_erase, if_neg hlayer]
          · exact hsucc layer (fun _ _ => hlayer)
      · intro op row n hrow htag hn
        rw [hpubs, SortedMap.get?_insert] at hrow
        by_cases hop : call.operation = op
        · rw [if_pos hop] at hrow
          obtain rfl := Option.some.inj hrow
          obtain rfl : version.number = n := Option.some.inj hn
          refine ⟨_, rows, hl.attributionIn hs.chain hs'.chain _ _ _ hatt, ?_, fun p => ?_⟩
          · rw [hblame, hnumber, SortedMap.get?_insert, if_pos rfl]
          · rw [get?_blameRows hrows]
            by_cases hp' : p ∈ composition.changes.entries.keys
            · rw [if_pos hp']
            · rw [if_neg hp', habsent p hp']
              rfl
        · rw [if_neg hop] at hrow
          obtain ⟨attribution, rows', hatt', hget, has⟩ := hi.blamed.published op row n hrow htag hn
          refine ⟨attribution, rows', hl.attributionIn hs.chain hs'.chain _ _ _ hatt', ?_, has⟩
          -- An earlier success made an earlier version.
          obtain ⟨head, old, hsucceeded⟩ := hs.succeeded hrow htag
          obtain ⟨hlt, _⟩ := List.getElem?_eq_some_iff.mp hsucceeded.stored
          obtain rfl := Option.some.inj (hsucceeded.result.symm.trans hn)
          rw [hlen] at hlt
          rw [hblame, SortedMap.get?_insert, if_neg]
          · exact hget
          · exact fun he => absurd hlt (he ▸ Nat.lt_irrefl _)
      · intro n rows' hget
        rw [hblame, SortedMap.get?_insert] at hget
        by_cases hn : plan.against.number + 1 = n
        · exact ⟨_, _, hnew, rfl, congrArg some (hnumber.trans hn)⟩
        · rw [if_neg hn] at hget
          obtain ⟨op, row, hrow, hrest⟩ := hi.blamed.only n rows' hget
          exact ⟨op, row, hl.publications op row hrow, hrest⟩

end committed

/-! ### Entry points -/

theorem Indexed.objects (hi : Indexed r) (hs : Sound r S) {objects : Objects Id}
    (hstep : Later r { r with objects := objects } ∧ Sound { r with objects := objects } S) :
    Indexed { r with objects := objects } :=
  hi.keep hstep.1 hs.chain hstep.2.chain rfl rfl rfl rfl

/-- Creating a Layer at a frozen checkpoint. -/
theorem createIn_indexed (hi : Indexed r) (hs : Sound r S) {layer : LayerId}
    {candidate : LayerCandidate Id} {checkpoint : LayerCheckpoint Id} {head : LayerHead Id}
    (hf : Frozen r S candidate.id checkpoint) (hchanges : checkpoint.changes = candidate.changes)
    (hprov : checkpoint.provenance = candidate.provenance)
    (hok : r.createIn layer candidate = .ok (head, r')) : Indexed r' := by
  obtain ⟨_, ⟨rfl, _⟩ | ⟨hempty, rfl⟩⟩ := of_createIn hok
  · exact hi
  · exact created_indexed hi hs hempty hf hchanges hprov

theorem cloneLayer_indexed (hi : Indexed r) (hs : Sound r S) {layer : LayerId} {checkpoint : Id}
    {head : LayerHead Id} (hok : r.cloneLayer layer checkpoint = .ok (head, r')) : Indexed r' := by
  unfold cloneLayer at hok
  obtain ⟨frozen, hfrozen, h₁⟩ := except_bind_eq_ok.mp hok
  exact createIn_indexed hi hs ((checkpointIn_eq_ok hs.chain).mp hfrozen) rfl rfl h₁

theorem createLayer_indexed (hi : Indexed r) (hs : Sound r S) {layer : LayerId} {base : LayerBase Id}
    {head : LayerHead Id} (hok : r.createLayer layer base = .ok (head, r')) : Indexed r' := by
  unfold createLayer at hok
  obtain ⟨⟨candidate, r₀⟩, hprep, h₁⟩ := except_bind_eq_ok.mp hok
  obtain ⟨objects, rfl, hp, hf⟩ := hs.prepareInitial hprep
  exact createIn_indexed (hi.objects hs (hp.sound hs)) (hp.sound hs).2 hf rfl rfl h₁

/-- What the operations on a Layer's head do to the indexes. -/
theorem update_indexed (hi : Indexed r) (hs : Sound r S) {op : OperationId} {u : Update Id}
    {outcome : LayerUpdate Id} {objects : Objects Id}
    (hstep : Later r { r with objects := objects } ∧ Sound { r with objects := objects } S)
    (hstored : u.discard = false → ∃ base sources, objects.readCheckpoint u.candidate.id =
      .ok ⟨base, u.candidate.changes, sources, u.candidate.provenance⟩)
    (hopen : r.refusePublished op u.expected.layer = .ok ())
    (hok : ({ r with objects := objects }).updateIn op u = .ok (outcome, r')) : Indexed r' := by
  have hi₀ := hi.objects hs hstep
  rcases of_updateIn hok with ⟨rfl, _⟩ | ⟨revision, current, accepted, result, hrec⟩
  · exact hi₀
  · exact hrec.indexed hi₀ hstep.2 (of_refusePublished hs hopen hrec.fresh) hstored

theorem captureLayer_indexed (hi : Indexed r) (hs : Sound r S) {op : OperationId}
    {expected : LayerHead Id} {changes : SparseChanges Id} {provenance : Option Provenance}
    {outcome : LayerUpdate Id}
    (hok : r.captureLayer op expected changes provenance = .ok (outcome, r')) : Indexed r' := by
  unfold captureLayer at hok
  obtain ⟨_, _, h₁⟩ := except_bind_eq_ok.mp hok
  obtain ⟨_, hopen, h₂⟩ := except_bind_eq_ok.mp h₁
  obtain ⟨before, _, h₃⟩ := except_bind_eq_ok.mp h₂
  obtain ⟨⟨candidate, r₀⟩, hprep, h₄⟩ := except_bind_eq_ok.mp h₃
  obtain ⟨objects, rfl, hp, _⟩ := of_prepareCheckpoint hprep
  exact update_indexed hi hs (hp.sound hs) (fun _ => ⟨_, _, hp.stored⟩) hopen h₄

theorem commitStack_indexed (hi : Indexed r) (hs : Sound r S) {op : OperationId}
    {expected : LayerHead Id} {source : Id} {changes : SparseChanges Id} {resolution : Option Id}
    {provenance : Option Provenance} {outcome : LayerUpdate Id}
    (hok : r.commitStack op expected source changes resolution provenance = .ok (outcome, r')) :
    Indexed r' := by
  unfold commitStack at hok
  obtain ⟨_, _, h₁⟩ := except_bind_eq_ok.mp hok
  obtain ⟨_, hopen, h₂⟩ := except_bind_eq_ok.mp h₁
  obtain ⟨_, _, h₃⟩ := except_bind_eq_ok.mp h₂
  obtain ⟨before, _, h₄⟩ := except_bind_eq_ok.mp h₃
  obtain ⟨⟨candidate, r₀⟩, hprep, h₅⟩ := except_bind_eq_ok.mp h₄
  obtain ⟨objects, rfl, hp, _⟩ := of_prepareCheckpoint hprep
  exact update_indexed hi hs (hp.sound hs) (fun _ => ⟨_, _, hp.stored⟩) hopen h₅

theorem discardLayer_indexed (hi : Indexed r) (hs : Sound r S) {op : OperationId}
    {expected : LayerHead Id} {outcome : LayerUpdate Id}
    (hok : r.discardLayer op expected = .ok (outcome, r')) : Indexed r' := by
  unfold discardLayer at hok
  obtain ⟨_, _, h₁⟩ := except_bind_eq_ok.mp hok
  obtain ⟨_, hopen, h₂⟩ := except_bind_eq_ok.mp h₁
  exact update_indexed hi hs ⟨.refl r, hs⟩ (by simp) hopen h₂

/-! ### Other writes -/

/-- Nothing was written that the indexes are about. -/
structure Aside (r r' : Repository Id) : Prop where
  layerHeads : r'.layerHeads = r.layerHeads
  layerPaths : r'.layerPaths = r.layerPaths
  blame : r'.blame = r.blame
  publications : r'.publications = r.publications
  checkpoints : r.objects.NoCheckpoints r'.objects

theorem Aside.refl (r : Repository Id) : Aside r r := ⟨rfl, rfl, rfl, rfl, fun _ _ h => h⟩

theorem Aside.trans {r'' : Repository Id} (h : Aside r r') (h' : Aside r' r'') : Aside r r'' :=
  ⟨h'.layerHeads.trans h.layerHeads, h'.layerPaths.trans h.layerPaths, h'.blame.trans h.blame,
    h'.publications.trans h.publications, h.checkpoints.trans h'.checkpoints⟩

theorem Aside.of_objects {objects : Objects Id} (h : r.objects.NoCheckpoints objects) :
    Aside r { r with objects := objects } := ⟨rfl, rfl, rfl, rfl, h⟩

theorem store_aside {object : Object Id} {id : Id} (hk : object.kind ≠ .checkpoint)
    (hok : r.store object = .ok (id, r')) : Aside r r' := by
  unfold store at hok
  obtain ⟨⟨_, objects⟩, hinsert, hpure⟩ := except_bind_eq_ok.mp hok
  obtain ⟨_, rfl⟩ := Prod.mk.inj (Except.ok.inj hpure)
  exact .of_objects (Objects.noCheckpoints_of_insert hinsert hk)

theorem putManifest_aside {manifest : Manifest Id} {id : Id}
    (hok : r.putManifest manifest = .ok (id, r')) : Aside r r' := by
  unfold putManifest at hok
  obtain ⟨_, _, hstore⟩ := except_bind_eq_ok.mp hok
  exact store_aside (by simp [Object.kind]) hstore

theorem putTree_aside {chunk : Chunk Id} {id : Id} (hok : r.putTree chunk = .ok (id, r')) :
    Aside r r' := by
  unfold putTree at hok
  obtain ⟨_, _, h₁⟩ := except_bind_eq_ok.mp hok
  obtain ⟨_, _, hstore⟩ := except_bind_eq_ok.mp h₁
  exact store_aside (by simp [Object.kind]) hstore

theorem build_aside (hc : Chain r S) {manifest : Manifest Id} {root : Id} {t : SqlTrees Id}
    (hok : Trees.build manifest (r.objects.trees .write) = .ok (root, t)) :
    Aside r { r with objects := t.store.objects } := by
  obtain ⟨hstep, _⟩ := (hc.honest.open_write.post_build manifest).of_ok hok
  exact .of_objects hstep.wrote.grows.noCheckpoints

theorem putSnapshot_aside (hc : Chain r S) {manifest : Manifest Id} {id : Id}
    (hok : r.putSnapshot manifest = .ok (id, r')) : Aside r r' := by
  unfold putSnapshot at hok
  obtain ⟨_, _, h₁⟩ := except_bind_eq_ok.mp hok
  obtain ⟨⟨root, t⟩, hbuild, hpure⟩ := except_bind_eq_ok.mp h₁
  obtain ⟨_, rfl⟩ := Prod.mk.inj (Except.ok.inj hpure)
  exact build_aside hc hbuild

theorem advanceIn_aside (hc : Chain r S) {op : OperationId} {expected : VersionNumber} {root : Id}
    {received : Bool} {outcome : AdvanceOutcome Id}
    (hbuilt : received = false → ∃ T : Manifest Id, IsTree r.objects.Readable T.flat root)
    (hok : r.advanceIn op expected root received = .ok (outcome, r')) : Aside r r' := by
  rcases of_advanceIn hc hok with ⟨rfl, _⟩ | ⟨_, _, head, hhead, hadvance⟩
  · exact .refl _
  · obtain ⟨objects, T, hgrows, _, _, ha⟩ := of_advanceNew hc hhead hbuilt hadvance
    cases ha with
    | stale _ => exact ⟨rfl, rfl, rfl, rfl, hgrows.noCheckpoints⟩
    | accepted _ _ _ _ => exact ⟨rfl, rfl, rfl, rfl, hgrows.noCheckpoints⟩

theorem compareAndAdvance_aside (hs : Sound r S) {op : OperationId} {expected : VersionNumber}
    {manifest : Id} {outcome : AdvanceOutcome Id}
    (hok : r.compareAndAdvance op expected manifest = .ok (outcome, r')) : Aside r r' := by
  unfold compareAndAdvance at hok
  obtain ⟨_, _, h₁⟩ := except_bind_eq_ok.mp hok
  obtain ⟨candidate, _, h₂⟩ := except_bind_eq_ok.mp h₁
  obtain ⟨⟨root, t⟩, hbuild, h₃⟩ := except_bind_eq_ok.mp h₂
  obtain ⟨_, hs', hroot⟩ := build_sound hs hbuild
  exact (build_aside hs.chain hbuild).trans
    (advanceIn_aside hs'.chain (fun _ => ⟨candidate, hroot⟩) h₃)

theorem Aside.indexed (h : Aside r r') (hi : Indexed r) (hs : Sound r S)
    (hstep : Later r r' ∧ ∃ S', Sound r' S') : Indexed r' := by
  obtain ⟨hl, S', hs'⟩ := hstep
  exact hi.keep hl hs.chain hs'.chain h.layerHeads h.layerPaths h.blame h.publications

end Repository

/-! ### Every step -/

namespace System

open Repository

theorem indexed_of_transaction {r r' : Repository Id} {S : VersionNumber → Manifest Id}
    (h : Transaction r r') (hi : Indexed r) (hs : Repository.Sound r S) : Indexed r' := by
  have hstep := sound_of_transaction h hs
  cases h with
  | putBlob hok => exact (store_aside (by simp [Object.kind]) hok).indexed hi hs hstep
  | putManifest hok => exact (putManifest_aside hok).indexed hi hs hstep
  | putSnapshot hok => exact (putSnapshot_aside hs.chain hok).indexed hi hs hstep
  | putTree hok => exact (putTree_aside hok).indexed hi hs hstep
  | compareAndAdvance hok => exact (compareAndAdvance_aside hs hok).indexed hi hs hstep
  | advanceToTree hok => exact (advanceIn_aside hs.chain (by simp) hok).indexed hi hs hstep
  | createLayer hok => exact createLayer_indexed hi hs hok
  | cloneLayer hok => exact cloneLayer_indexed hi hs hok
  | captureLayer hok => exact captureLayer_indexed hi hs hok
  | discardLayer hok => exact discardLayer_indexed hi hs hok
  | commitStack hok => exact commitStack_indexed hi hs hok

theorem Step.indexed {s s' : System Id} (h : Step s s') (hs : s.Sound) (hi : Indexed s.repository) :
    Indexed s'.repository := by
  obtain ⟨⟨S, hrepo⟩, hplans⟩ := hs
  cases h with
  | transact ht => exact indexed_of_transaction ht hi hrepo
  | prepare hok => exact hi
  | commit hm hok =>
      obtain ⟨hcurrent, outcome, hcommitted, _⟩ := of_commitIn hok
      exact hcommitted.indexed ((hplans _ hm).fits hrepo hcurrent) hi hrepo

theorem initial_indexed (identity : Id) : Indexed (System.initial identity).repository where
  tracks layer := by
    refine ⟨?_, fun _ => rfl⟩
    rintro n ⟨e, hlatest, _⟩
    cases hlatest
  blamed := by
    refine ⟨?_, ?_⟩
    · intro op row n hrow
      cases hrow
    · intro n rows hget
      cases hget

/-- The indexes of every reachable repository match its history. -/
theorem Reachable.indexed {s : System Id} (h : Reachable s) : Indexed s.repository := by
  obtain ⟨identity, hrun⟩ := h
  induction hrun with
  | refl => exact initial_indexed identity
  | tail hrun hstep ih => exact hstep.indexed (Reachable.sound ⟨identity, hrun⟩) ih

end System

end Javelin
