import Javelin.Publications
import Javelin.Workspaces

/-! # What a capture of a directory contains

A directory is scanned only while it is not behind the head.  `Contained` says that a stacked revision
is in the checkpoint a directory was synchronised with.  While explicit captures are made of heads that
the directory is not behind (`NotBehind`), every run keeps `Synchronised`, and whatever is scanned
contains every stacked revision: `scanned_contains_stacked`.

The guard of the code looks at the latest revision only, so an explicit capture of a stacked head opens
the way for a scan that reverts the stacked work: `capture_reverts_stack`. -/

namespace Javelin

open KeyedList

variable {Id : Type} [LinearOrder Id] [Encoding Id]

namespace Repository
variable {r r' : Repository Id} {S : VersionNumber → Manifest Id} {op : OperationId}
  {req : LayerRequest Id} {outcome : LayerUpdate Id}

/-! ### Stacked revisions -/

omit [LinearOrder Id] [Encoding Id] in
theorem exists_of_stackedAt {layer : LayerId} {k : ℕ} (h : r.stackedAt layer k = true) :
    ∃ e, (r.events layer).get? k = some e := by
  unfold stackedAt at h
  split at h
  · rename_i hget
    exact ⟨_, hget⟩
  · cases h

/-- A revision stays as it was made. -/
theorem Later.stackedAt (h : Later r r') (hs : Sound r S) {layer : LayerId} {k : ℕ} {e : Event Id}
    (he : (r.events layer).get? k = some e) : r'.stackedAt layer k = r.stackedAt layer k := by
  have he' := h.events layer k e he
  unfold Repository.stackedAt
  rw [he, he']
  cases k with
  | zero =>
      obtain ⟨_, hnone⟩ := (hs.history layer).first e he
      obtain ⟨checkpoint, discarded, operation⟩ := e
      obtain rfl : operation = none := hnone
      rfl
  | succ k =>
      obtain ⟨op, a, hop, ha, _⟩ := (hs.history layer).later k e he
      obtain ⟨checkpoint, discarded, operation⟩ := e
      obtain rfl : operation = some op := hop
      simp only
      rw [ha, h.layerAttempts op a ha]

/-! ### Operations on a Layer's head -/

/-- The source a request stacks. -/
def source {Id : Type} : LayerRequest Id → Option Id
  | .stack _ source _ _ _ => some source
  | _ => none

theorem source_of_update {u : Update Id} {r₀ : Repository Id} (hok : req.update r = .ok (u, r₀)) :
    u.source = source req := by
  cases req with
  | capture expected changes provenance =>
      obtain ⟨_, _, h₁⟩ := except_bind_eq_ok.mp hok
      obtain ⟨_, _, hpure⟩ := except_bind_eq_ok.mp h₁
      obtain ⟨rfl, _⟩ := Prod.mk.inj (Except.ok.inj hpure)
      rfl
  | discard expected =>
      obtain ⟨rfl, _⟩ := Prod.mk.inj (Except.ok.inj hok)
      rfl
  | stack expected source changes resolution provenance =>
      obtain ⟨_, _, h₁⟩ := except_bind_eq_ok.mp hok
      obtain ⟨_, _, h₂⟩ := except_bind_eq_ok.mp h₁
      obtain ⟨_, _, hpure⟩ := except_bind_eq_ok.mp h₂
      obtain ⟨rfl, _⟩ := Prod.mk.inj (Except.ok.inj hpure)
      rfl

/-- The head moved by one revision. -/
structure Moved (r r' : Repository Id) (req : LayerRequest Id) (outcome : LayerUpdate Id) : Prop where
  latest : ∃ e, r'.latestIn req.expected.layer = .ok (req.expected.revision + 1, e) ∧
    outcome = .applied (e.state r'.identity req.expected.layer (req.expected.revision + 1))
  stacked : r'.stackedAt req.expected.layer (req.expected.revision + 1) = (source req).isSome
  kept : ∀ m e, (r'.events req.expected.layer).get? m = some e → m ≠ req.expected.revision + 1 →
    (r.events req.expected.layer).get? m = some e
  others : ∀ layer, req.expected.layer ≠ layer → r'.events layer = r.events layer

/-- An accepted operation is the latest event of its Layer, and its outcome is that event's state. -/
theorem Recorded.applied {u : Update Id} {revision result : ℕ} {current : Event Id}
    (h : Recorded r op u outcome revision current true result r') :
    r'.latestIn u.expected.layer = .ok (revision + 1, ⟨u.candidate.id, u.discard, some op⟩) ∧
      outcome = .applied (Event.state ⟨u.candidate.id, u.discard, some op⟩ r'.identity u.expected.layer
        (revision + 1)) := by
  obtain ⟨_, hmax⟩ := latestIn_eq_ok.mp h.latest
  have hresult := h.advanced
  rw [if_pos rfl] at hresult
  subst hresult
  have hevents := h.events u.expected.layer
  rw [if_pos ⟨rfl, rfl⟩] at hevents
  have hnew : (r'.events u.expected.layer).get? (revision + 1) = some ⟨u.candidate.id, u.discard, some op⟩ := by
    rw [hevents, SortedMap.get?_insert, if_pos rfl]
  constructor
  · refine latestIn_eq_ok.mpr ⟨hnew, fun m e he => ?_⟩
    rw [hevents, SortedMap.get?_insert] at he
    split at he
    · omega
    · have := hmax m e he
      omega
  · -- the outcome was read back from the recorded attempt
    obtain ⟨a, before, after, candidate, base, hv⟩ := of_layerOutcome h.outcome
    have ha := hv.attempt
    rw [h.layerAttempts, SortedMap.get?_insert, if_pos rfl] at ha
    obtain rfl := Option.some.inj ha
    obtain rfl := Option.some.inj (hnew.symm.trans hv.result)
    have hupd := hv.update
    unfold attemptUpdate at hupd
    rw [if_pos (show (u.attempt true (revision + 1)).accepted = true from rfl)] at hupd
    obtain ⟨_, _, hpure⟩ := except_bind_eq_ok.mp hupd
    exact (Except.ok.inj hpure).symm

/-- An operation moves the head of its Layer, or changes no Layer. -/
theorem moved_of_perform (hs : Sound r S) (hok : r.perform op req = .ok (outcome, r')) :
    (r.layerStateIn req.expected.layer = .ok (.active req.expected) ∧ Moved r r' req outcome) ∨
      (¬ r.layerStateIn req.expected.layer = .ok (.active req.expected) ∧
        ∀ layer, r'.events layer = r.events layer) := by
  obtain ⟨hverify, hrefuse, u, r₀, hupdate, hupdated⟩ := of_perform hok
  obtain ⟨⟨objects, rfl⟩, hl₀, hs₀⟩ := of_update hs hupdate
  have hexpected := (expected_of_update hupdate).1
  have hsource := source_of_update hupdate
  have hlatest : r.layerStateIn req.expected.layer = .ok (.active req.expected) →
      ∃ e, r.latestIn req.expected.layer = .ok (req.expected.revision, e) ∧ e.discarded = false := by
    intro hactive
    obtain ⟨⟨e, he, hlive, _⟩, _⟩ := hs.live_of_active hactive
    exact ⟨e, he, hlive⟩
  cases of_updateIn hupdated with
  | inl h =>
      -- a recorded operation: its result would lie past the head
      obtain ⟨rfl, prior, hprior, hsame, _, hout⟩ := h
      refine Or.inr ⟨fun hactive => ?_, fun _ => rfl⟩
      obtain ⟨e, he, _⟩ := hlatest hactive
      obtain ⟨_, hmax⟩ := latestIn_eq_ok.mp he
      obtain ⟨a, before, after, candidate, base, hv⟩ := of_layerOutcome hout
      obtain rfl := Option.some.inj (hprior.symm.trans hv.attempt)
      unfold Update.Differs at hsame
      simp only [not_or, not_not] at hsame
      obtain ⟨hlayer, hrevision, _⟩ := hsame
      rw [hexpected] at hlayer hrevision
      have hresult := hmax prior.result after (by
        rw [← hlayer]
        exact hv.result)
      have hupd := hv.update
      unfold attemptUpdate at hupd
      split at hupd
      · obtain ⟨_, hrefused, _⟩ := except_bind_eq_ok.mp hupd
        simp only [refuse_eq_ok, not_or, not_not] at hrefused
        omega
      · obtain ⟨_, hrefused, _⟩ := except_bind_eq_ok.mp hupd
        rw [refuse_eq_ok, not_le] at hrefused
        omega
  | inr h =>
      obtain ⟨revision, current, accepted, result, hrec⟩ := h
      have hcurrent : r.latestIn req.expected.layer = .ok (revision, current) := by
        have h := hrec.latest
        rw [hexpected] at h
        exact h
      by_cases haccepted : accepted = true
      · obtain ⟨hrevision, hlive⟩ := hrec.decided.mp haccepted
        rw [hexpected] at hrevision
        subst hrevision
        have hactive : r.layerStateIn req.expected.layer = .ok (.active req.expected) := by
          obtain ⟨hid, _, e, he, _, hcheckpoint⟩ := verifyHead_eq_ok.mp hverify
          obtain ⟨hget, _⟩ := latestIn_eq_ok.mp hcurrent
          obtain rfl := Option.some.inj (hget.symm.trans he)
          rw [layerStateIn_of_open (of_refusePublished hs hrefuse hrec.fresh), latestEventStateIn_eq_ok]
          refine ⟨_, _, hcurrent, ?_⟩
          unfold Event.state
          rw [if_neg (by rw [hlive]; simp), ← hid, hcheckpoint]
        subst haccepted
        have hresult := hrec.advanced
        rw [if_pos rfl] at hresult
        subst hresult
        have hevents := hrec.events req.expected.layer
        rw [if_pos ⟨rfl, by rw [hexpected]⟩] at hevents
        have hnew : (r'.events req.expected.layer).get? (req.expected.revision + 1) =
            some ⟨u.candidate.id, u.discard, some op⟩ := by
          rw [hevents, SortedMap.get?_insert, if_pos rfl]
        have happlied := hrec.applied
        rw [hexpected] at happlied
        refine Or.inl ⟨hactive, ⟨_, happlied⟩, ?_, ?_, ?_⟩
        · unfold stackedAt
          rw [hnew]
          simp only
          rw [hrec.layerAttempts, SortedMap.get?_insert, if_pos rfl, ← hsource]
          rfl
        · intro m e he hne
          rw [hevents, SortedMap.get?_insert, if_neg (Ne.symm hne)] at he
          exact he
        · intro layer hne
          rw [hrec.events layer, if_neg (fun h => hne (by rw [← hexpected]; exact h.2))]
          rfl
      · refine Or.inr ⟨fun hactive => ?_, fun layer => ?_⟩
        · obtain ⟨e, he, hlive⟩ := hlatest hactive
          obtain ⟨hrevision, rfl⟩ := Prod.mk.inj (Except.ok.inj (he.symm.trans hcurrent))
          exact haccepted (hrec.decided.mpr ⟨by rw [hexpected]; exact hrevision.symm, hlive⟩)
        · rw [hrec.events layer, if_neg (fun h => haccepted h.1)]
          rfl

/-! ### Reading a checkpoint's files -/

omit [LinearOrder Id] [Encoding Id] in
theorem entries_of_ofMap {entries : SortedMap RepoPath (FileEntry Id)} {m : Manifest Id}
    (hok : Manifest.ofMap entries = .ok m) : m.entries = entries := by
  unfold Manifest.ofMap at hok
  by_cases hvalid : ∀ p ∈ entries.keys, p.Valid
  · rw [dif_pos hvalid] at hok
    by_cases hfree : ∀ p ∈ entries.keys, ∀ a ∈ p.ancestors, a ∉ entries.keys
    · rw [dif_pos hfree] at hok
      exact congrArg Manifest.entries (Except.ok.inj hok).symm
    · rw [dif_neg hfree] at hok
      cases hok
  · rw [dif_neg hvalid] at hok
    cases hok

theorem Sound.exists_checkpointManifest (hs : Sound r S) {id : Id} {checkpoint : LayerCheckpoint Id}
    (hf : Frozen r S id checkpoint) : ∃ m, r.checkpointManifest id = .ok m ∧
      m.flat = (S checkpoint.base.version).flat.over checkpoint.changes.flat := by
  obtain ⟨v, hv, _⟩ := hf.version
  have htree := hs.chain.manifestAt_eq hv
  unfold manifestAt at htree
  obtain ⟨v', hv', h₁⟩ := except_bind_eq_ok.mp htree
  obtain ⟨⟨entries, t⟩, hentries, hmap⟩ := except_bind_eq_ok.mp h₁
  obtain rfl := Option.some.inj (hv.symm.trans (hs.chain.versionIn_eq_ok.mp hv'))
  have hsame := entries_of_ofMap hmap
  obtain ⟨m, hm⟩ := Manifest.exists_apply (S checkpoint.base.version) checkpoint.changes hf.exact.free
  refine ⟨m, ?_, ?_⟩
  · unfold checkpointManifest
    rw [except_bind_of_ok ((checkpointIn_eq_ok hs.chain).mpr hf),
      except_bind_of_ok (hs.chain.treeIn_eq_ok.mpr ⟨v, hv, rfl⟩), except_bind_of_ok hentries]
    simp only
    rw [← hsame, ← hm]
    exact ofMap_entries m
  · show mapFlat m.entries = _
    rw [hm, SparseChanges.mapFlat_apply]
    rfl

/-! ### Scanning -/

omit [LinearOrder Id] in
/-- Scanning only stores blobs. -/
theorem of_scanInto [LinearOrder Id] {root : Disk Str} {scanned : Manifest Id} (hok : r.scanInto root = .ok (scanned, r')) :
    scanned = (hashed root).scan ∧ (∃ objects, r' = { r with objects := objects }) ∧
      ∀ plans, System.Run (⟨r, plans⟩ : System Id) ⟨r', plans⟩ := by
  have key : ∀ (l : List (RepoPath × FileEntry Str)) (r : Repository Id),
      l.foldlM (fun r e => r.putBlob e.2.content >>= fun stored => return stored.2) r = (.ok r' : Except (Error Id) _) →
      (∃ objects, r' = { r with objects := objects }) ∧
        ∀ plans, System.Run (⟨r, plans⟩ : System Id) ⟨r', plans⟩ := by
    intro l
    induction l with
    | nil =>
        intro r h
        obtain rfl := Except.ok.inj h
        exact ⟨⟨_, rfl⟩, fun _ => .refl⟩
    | cons e l ih =>
        intro r h
        rw [List.foldlM_cons] at h
        obtain ⟨r₁, hstep, h⟩ := except_bind_eq_ok.mp h
        obtain ⟨⟨id, r₂⟩, hput, hpure⟩ := except_bind_eq_ok.mp hstep
        obtain rfl := Except.ok.inj hpure
        obtain ⟨⟨objects, rfl⟩, hrun⟩ := ih r₂ h
        have hput' := hput
        unfold putBlob store at hput'
        obtain ⟨⟨_, objects₁⟩, _, hpure'⟩ := except_bind_eq_ok.mp hput'
        obtain ⟨_, rfl⟩ := Prod.mk.inj (Except.ok.inj hpure')
        exact ⟨⟨objects, rfl⟩, fun plans => .head (.transact (.putBlob hput)) (hrun plans)⟩
  unfold scanInto at hok
  obtain ⟨r₁, hfold, hpure⟩ := except_bind_eq_ok.mp hok
  obtain ⟨rfl, rfl⟩ := Prod.mk.inj (Except.ok.inj hpure)
  exact ⟨rfl, key _ _ hfold⟩

/-- A Layer stays active while nothing of it is written. -/
theorem Sound.active_of_same (hs : Sound r S) {layer : LayerId} {head : LayerHead Id}
    (hactive : r.layerStateIn layer = .ok (.active head)) (hidentity : r'.identity = r.identity)
    (hpubs : r'.publications = r.publications) (hevents : r'.events layer = r.events layer) :
    r'.layerStateIn layer = .ok (.active head) := by
  obtain ⟨⟨e, _, _, hopen⟩, _⟩ := hs.live_of_active hactive
  rw [layerStateIn_of_open hopen, latestEventStateIn_eq_ok] at hactive
  have hopen' : r'.successOf layer = none := by
    rw [successOf_congr hpubs]
    exact hopen
  rw [layerStateIn_of_open hopen', latestEventStateIn_eq_ok, hidentity]
  unfold latestIn
  rw [hevents]
  exact hactive

section captures
variable {operationId : LayerHead Id → SparseChanges Id → Option Provenance → OperationId}
  {head : LayerHead Id} {root : Disk Str} {provenance : Option Provenance} {capture : Capture Id}

/-- What a capture of a directory did: it stored blobs, and captured the head unless nothing changed. -/
theorem of_captureAt (hok : r.captureAt operationId head root provenance = .ok (capture, r')) :
    capture.behind = false ∧ capture.head = head ∧ ∃ objects,
      (∀ plans, System.Run (⟨r, plans⟩ : System Id) ⟨{ r with objects := objects }, plans⟩) ∧
      ((capture.update = none ∧ r' = { r with objects := objects }) ∨
        ∃ op changes outcome, capture.update = some outcome ∧
          ({ r with objects := objects } : Repository Id).perform op (.capture head changes provenance) =
            .ok (outcome, r')) := by
  unfold captureAt at hok
  obtain ⟨checkpoint, _, h₁⟩ := except_bind_eq_ok.mp hok
  obtain ⟨base, _, h₂⟩ := except_bind_eq_ok.mp h₁
  obtain ⟨_, _, h₃⟩ := except_bind_eq_ok.mp h₂
  obtain ⟨⟨scanned, r₁⟩, hscan, h₄⟩ := except_bind_eq_ok.mp h₃
  obtain ⟨_, ⟨objects, rfl⟩, hrun⟩ := of_scanInto hscan
  simp only at h₄
  split at h₄
  · obtain ⟨rfl, rfl⟩ := Prod.mk.inj (Except.ok.inj h₄)
    exact ⟨rfl, rfl, objects, hrun, Or.inl ⟨rfl, rfl⟩⟩
  · obtain ⟨⟨update, r₂⟩, hcapture, hpure⟩ := except_bind_eq_ok.mp h₄
    obtain ⟨rfl, rfl⟩ := Prod.mk.inj (Except.ok.inj hpure)
    exact ⟨rfl, rfl, objects, hrun, Or.inr ⟨_, _, _, rfl, hcapture⟩⟩

end captures

end Repository

namespace Workspace
variable {w w' : Workspace Id} {S : VersionNumber → Manifest Id}

/-! ### The invariant -/

/-- The directory was synchronised with a checkpoint at or after a revision. -/
def Contained (w : Workspace Id) (k : ℕ) : Prop :=
  ∃ m e, k ≤ m ∧ (w.repository.events w.layer).get? m = some e ∧ w.sync = some e.checkpoint

/-- The latest revision is stacked, and the directory is not synchronised with it. -/
def HeadBehind (w : Workspace Id) : Prop :=
  ∃ n e, w.repository.latestIn w.layer = .ok (n, e) ∧ w.repository.stackedAt w.layer n = true ∧
    w.sync ≠ some e.checkpoint

/-- The directory is behind the head, or it contains every stacked revision. -/
structure Synchronised (w : Workspace Id) : Prop where
  reachable : w.system.Reachable
  covered : w.HeadBehind ∨ ∀ k, w.repository.stackedAt w.layer k = true → w.Contained k

/-- An explicit capture of the head is made while the directory is not behind it. -/
def NotBehind (w : Workspace Id) (expected : LayerHead Id) : Prop :=
  w.repository.layerStateIn w.layer = .ok (.active expected) → ¬ w.Behind expected

omit [LinearOrder Id] [Encoding Id] in
/-- A directory synchronised with the head contains every revision. -/
theorem contained_of_latest {n : ℕ} {e : Event Id} (hlatest : w.repository.latestIn w.layer = .ok (n, e))
    (hsync : w.sync = some e.checkpoint) (k : ℕ) (hk : w.repository.stackedAt w.layer k = true) :
    w.Contained k := by
  obtain ⟨hget, hmax⟩ := Repository.latestIn_eq_ok.mp hlatest
  obtain ⟨e', he'⟩ := Repository.exists_of_stackedAt hk
  exact ⟨n, e, hmax k e' he', hget, hsync⟩

/-- An active head is behind exactly if its latest revision is. -/
theorem headBehind_iff (hs : w.repository.Sound S) {head : LayerHead Id}
    (hactive : w.repository.layerStateIn w.layer = .ok (.active head)) : w.HeadBehind ↔ w.Behind head := by
  obtain ⟨⟨e, hlatest, _⟩, e', he', hcheckpoint⟩ := hs.live_of_active hactive
  obtain ⟨hget, _⟩ := Repository.latestIn_eq_ok.mp hlatest
  obtain rfl := Option.some.inj (hget.symm.trans he')
  have hlayer := (hs.verifyHead hactive).1
  unfold HeadBehind Behind Repository.stacked
  rw [hlayer]
  constructor
  · intro h
    obtain ⟨n, e', hlatest', hstacked, hsync⟩ := h
    obtain ⟨rfl, rfl⟩ := Prod.mk.inj (Except.ok.inj (hlatest.symm.trans hlatest'))
    exact ⟨hstacked, hcheckpoint ▸ hsync⟩
  · intro h
    exact ⟨head.revision, e, hlatest, h.1, hcheckpoint.symm ▸ h.2⟩

/-- Steps that add no revision and leave the sync record keep the invariant. -/
theorem Synchronised.keep (h : w.Synchronised) (hrun : System.Run w.system w'.system)
    (hlayer : w'.layer = w.layer) (hsync : w'.sync = w.sync)
    (hevents : w'.repository.events w.layer = w.repository.events w.layer) : w'.Synchronised := by
  obtain ⟨S, hs⟩ := h.reachable.sound.repository
  have hl := (hrun.later h.reachable.sound).1
  have hlatest : w'.repository.latestIn w.layer = w.repository.latestIn w.layer := by
    unfold Repository.latestIn
    rw [hevents]
  have hstacked : ∀ k e, (w.repository.events w.layer).get? k = some e →
      w'.repository.stackedAt w.layer k = w.repository.stackedAt w.layer k :=
    fun k e he => hl.stackedAt hs he
  refine ⟨h.reachable.run hrun, ?_⟩
  unfold HeadBehind Contained
  rw [hlayer, hlatest, hsync, hevents]
  cases h.covered with
  | inl h =>
      obtain ⟨n, e, hn, hst, hne⟩ := h
      exact Or.inl ⟨n, e, hn, (hstacked n e (Repository.latestIn_eq_ok.mp hn).1).trans hst, hne⟩
  | inr h =>
      refine Or.inr (fun k hk => h k ?_)
      obtain ⟨e, he⟩ := Repository.exists_of_stackedAt hk
      rw [hevents] at he
      rw [← hstacked k e he]
      exact hk

/-- A moved head keeps the invariant: it is stacked, or the directory was not behind. -/
theorem Synchronised.move (h : w.Synchronised) (hrun : System.Run w.system w'.system)
    (hlayer : w'.layer = w.layer) (hsync : w'.sync = w.sync) {req : LayerRequest Id}
    {outcome : LayerUpdate Id} (hexpected : req.expected.layer = w.layer)
    (hmoved : Repository.Moved w.repository w'.repository req outcome)
    (hallowed : Repository.source req = none → ¬ w.HeadBehind) : w'.Synchronised := by
  obtain ⟨S, hs⟩ := h.reachable.sound.repository
  have hl := (hrun.later h.reachable.sound).1
  obtain ⟨e, hlatest, _⟩ := hmoved.latest
  have hstacked := hmoved.stacked
  rw [hexpected] at hlatest hstacked
  obtain ⟨hget, hmax⟩ := Repository.latestIn_eq_ok.mp hlatest
  refine ⟨h.reachable.run hrun, ?_⟩
  by_cases hsame : w'.sync = some e.checkpoint
  · exact Or.inr (fun k hk => contained_of_latest (by rw [hlayer]; exact hlatest) hsame k hk)
  cases hsource : Repository.source req with
  | some source =>
      refine Or.inl ⟨_, e, by rw [hlayer]; exact hlatest, ?_, hsame⟩
      rw [hlayer, hstacked, hsource]
      rfl
  | none =>
      -- the new revision is not stacked
      rw [hsource] at hstacked
      have hold := h.covered.resolve_left (hallowed hsource)
      refine Or.inr (fun k hk => ?_)
      rw [hlayer] at hk
      have hexists : ∃ e', (w.repository.events w.layer).get? k = some e' := by
        obtain ⟨e', he'⟩ := Repository.exists_of_stackedAt hk
        have hne : k ≠ req.expected.revision + 1 := by
          rintro rfl
          rw [hstacked] at hk
          cases hk
        have hold := hmoved.kept k e'
        rw [hexpected] at hold
        exact ⟨e', hold he' hne⟩
      obtain ⟨e', he'⟩ := hexists
      obtain ⟨m, e'', hle, hm, hm'⟩ := hold k ((hl.stackedAt hs he').symm.trans hk)
      exact ⟨m, e'', hle, by rw [hlayer]; exact hl.events _ _ _ hm, hsync.trans hm'⟩

section captures
variable {operationId : LayerHead Id → SparseChanges Id → Option Provenance → OperationId}
  {head : LayerHead Id} {provenance : Option Provenance} {capture : Capture Id}

/-- A capture that scans keeps the invariant, and the directory it scanned matches the new head. -/
theorem Synchronised.captureAt (h : w.Synchronised) {root : Disk Str} {r' : Repository Id}
    (hactive : w.repository.layerStateIn w.layer = .ok (.active head)) (hclear : ¬ w.HeadBehind)
    (hok : w.repository.captureAt operationId head root provenance = .ok (capture, r')) :
    (w.withRepository r').Synchronised ∧ ∀ checkpoint, matched capture = some checkpoint →
      ∃ n e, r'.latestIn w.layer = .ok (n, e) ∧ e.checkpoint = checkpoint := by
  obtain ⟨S, hs⟩ := h.reachable.sound.repository
  obtain ⟨_, hhead, objects, hrun, hupdate⟩ := Repository.of_captureAt hok
  have hrun := hrun w.system.plans
  unfold matched
  cases hupdate with
  | inl hupdate =>
      obtain ⟨hnone, rfl⟩ := hupdate
      obtain ⟨⟨e, hlatest, _⟩, e', he', hcheckpoint⟩ := hs.live_of_active hactive
      obtain ⟨hget, _⟩ := Repository.latestIn_eq_ok.mp hlatest
      obtain rfl := Option.some.inj (hget.symm.trans he')
      refine ⟨h.keep hrun rfl rfl rfl, fun checkpoint hm => ⟨head.revision, e, hlatest, ?_⟩⟩
      rw [hnone, hhead] at hm
      exact hcheckpoint.trans (Option.some.inj hm)
  | inr hupdate =>
      obtain ⟨op, changes, outcome, hsome, hperform⟩ := hupdate
      obtain ⟨S', hs'⟩ := (h.reachable.run hrun).sound.repository
      have hlayer : (LayerRequest.capture head changes provenance).expected.layer = w.layer :=
        (hs.verifyHead hactive).1
      have hactive' : ({ w.repository with objects := objects } : Repository Id).layerStateIn
          (LayerRequest.capture head changes provenance).expected.layer =
            .ok (.active (LayerRequest.capture head changes provenance).expected) := by
        rw [hlayer]
        exact hs.active_of_same hactive rfl rfl rfl
      obtain ⟨_, hm⟩ := (Repository.moved_of_perform hs' hperform).resolve_right (fun hno => hno.1 hactive')
      have hmoved : Repository.Moved w.repository r' (.capture head changes provenance) outcome :=
        ⟨hm.latest, hm.stacked, hm.kept, hm.others⟩
      have hrun' : System.Run w.system ⟨r', w.system.plans⟩ :=
        hrun.tail (.transact (.captureLayer hperform))
      obtain ⟨e, hlatest, houtcome⟩ := hm.latest
      rw [hlayer] at hlatest
      refine ⟨h.move hrun' rfl rfl hlayer hmoved (fun _ => hclear), fun checkpoint hm => ⟨_, e, hlatest, ?_⟩⟩
      rw [hsome, houtcome] at hm
      unfold Event.state at hm
      split at hm
      · rename_i hstate
        cases hstate
      · rename_i hstate
        split at hstate
        · cases hstate
        · cases hstate
          exact Option.some.inj hm
      · cases hm

/-- Capturing a directory keeps the invariant, and scans it only if it contains every stacked revision. -/
theorem Synchronised.captureSynced (h : w.Synchronised) {root : Option (Disk Str)}
    (hactive : w.repository.layerStateIn w.layer = .ok (.active head))
    (hok : w.captureSynced operationId head root provenance = .ok (capture, w')) :
    w'.Synchronised ∧
      (capture.behind = false → ∀ k, w.repository.stackedAt w.layer k = true → w.Contained k) := by
  obtain ⟨S, hs⟩ := h.reachable.sound.repository
  unfold Workspace.captureSynced at hok
  split at hok
  · obtain ⟨rfl, rfl⟩ := Prod.mk.inj (Except.ok.inj hok)
    exact ⟨h, (fun h => by cases h)⟩
  rename_i hbehind
  have hclear : ¬ w.HeadBehind := fun hb => hbehind ((headBehind_iff hs hactive).mp hb)
  refine ⟨?_, fun _ => h.covered.resolve_left hclear⟩
  obtain ⟨⟨capture', r'⟩, hcapture, hpure⟩ := except_bind_eq_ok.mp hok
  obtain ⟨hkept, hmatched⟩ := h.captureAt hactive hclear hcapture
  simp only at hpure
  split at hpure
  · rename_i checkpoint hm
    obtain ⟨_, rfl⟩ := Prod.mk.inj (Except.ok.inj hpure)
    obtain ⟨n, e, hlatest, rfl⟩ := hmatched checkpoint hm
    have hlatest' : ({ w.withRepository r' with sync := some e.checkpoint } : Workspace Id).repository.latestIn
        w.layer = .ok (n, e) := hlatest
    exact ⟨hkept.reachable, Or.inr (contained_of_latest hlatest' rfl)⟩
  · obtain ⟨_, rfl⟩ := Prod.mk.inj (Except.ok.inj hpure)
    exact hkept

end captures

/-! ### Steps and runs -/

omit [LinearOrder Id] [Encoding Id] in
theorem attempt_eq_ok {α : Type} {x : Except (Error Id) α} {a : α} : attempt x = .ok a ↔ x = .ok a := by
  cases x with
  | error e => exact ⟨(fun h => by cases h), (fun h => by cases h)⟩
  | ok b => exact ⟨fun h => congrArg _ (Except.ok.inj h), fun h => congrArg _ (Except.ok.inj h)⟩

/-- A refresh stores blobs and changes the directory; one that is carried through synchronises it. -/
theorem of_refreshIn {stop : Option ℕ} (hok : w.refreshIn stop = .ok w') :
    w' = w ∨ ∃ head objects directory, w.repository.layerStateIn w.layer = .ok (.active head) ∧
      System.Run w.system ⟨{ w.repository with objects := objects }, w.system.plans⟩ ∧
      (w' = { w.withRepository { w.repository with objects := objects } with directory := directory } ∨
        w' = { w.withRepository { w.repository with objects := objects } with
          directory := directory, sync := some head.checkpoint }) := by
  unfold refreshIn at hok
  obtain ⟨state, hstate, h⟩ := except_bind_eq_ok.mp hok
  rw [attempt_eq_ok] at hstate
  split at h
  · rename_i head sync hsync
    split at h
    · exact Or.inl (Except.ok.inj h).symm
    obtain ⟨before, _, h⟩ := except_bind_eq_ok.mp h
    obtain ⟨after, _, h⟩ := except_bind_eq_ok.mp h
    split at h
    · cases h
    obtain ⟨base, _, h⟩ := except_bind_eq_ok.mp h
    obtain ⟨target, _, h⟩ := except_bind_eq_ok.mp h
    obtain ⟨⟨scanned, r⟩, hscan, h⟩ := except_bind_eq_ok.mp h
    rw [attempt_eq_ok] at hscan
    obtain ⟨_, ⟨objects, rfl⟩, hrun⟩ := Repository.of_scanInto hscan
    simp only at h
    split at h
    · cases h
    obtain ⟨writes, _, h⟩ := except_bind_eq_ok.mp h
    split at h
    · cases h
    rename_i directory _
    refine Or.inr ⟨head, objects, directory, hstate, hrun _, ?_⟩
    split at h
    · exact Or.inr (Except.ok.inj h).symm
    · exact Or.inl (Except.ok.inj h).symm
  · cases h
  · cases h

/-- Every step keeps the invariant, as long as heads are captured that the directory is not behind. -/
theorem Step.synchronised {operationId : LayerHead Id → SparseChanges Id → Option Provenance → OperationId}
    (h : Step operationId NotBehind w w') (hw : w.Synchronised) : w'.Synchronised := by
  obtain ⟨S, hs⟩ := hw.reachable.sound.repository
  have hrequest : ∀ {op req outcome r'}, w.repository.perform op req = .ok (outcome, r') →
      (w.repository.layerStateIn w.layer = .ok (.active req.expected) → Repository.source req = none →
        ¬ w.Behind req.expected) → (w.withRepository r').Synchronised := by
    intro op req outcome r' hok hallowed
    have hrun : System.Run w.system ⟨r', w.system.plans⟩ := .single (.transact (Repository.transaction_of_perform hok))
    cases Repository.moved_of_perform hs hok with
    | inl h =>
        obtain ⟨hactive, hmoved⟩ := h
        by_cases hlayer : req.expected.layer = w.layer
        · rw [hlayer] at hactive
          refine hw.move hrun rfl rfl hlayer hmoved (fun hsource hb => ?_)
          exact hallowed hactive hsource ((headBehind_iff hs hactive).mp hb)
        · exact hw.keep hrun rfl rfl (hmoved.others w.layer hlayer)
    | inr h => exact hw.keep hrun rfl rfl (h.2 w.layer)
  cases h with
  | edit => exact hw.keep .refl rfl rfl rfl
  | captureWorkspace hok =>
      unfold Workspace.captureWorkspace at hok
      obtain ⟨state, hstate, h₁⟩ := except_bind_eq_ok.mp hok
      split at h₁
      · obtain ⟨⟨capture, w₁⟩, hcapture, hpure⟩ := except_bind_eq_ok.mp h₁
        obtain ⟨_, rfl⟩ := Prod.mk.inj (Except.ok.inj hpure)
        exact (hw.captureSynced hstate hcapture).1
      · obtain ⟨_, rfl⟩ := Prod.mk.inj (Except.ok.inj h₁)
        exact hw
  | captureDirectory hok =>
      unfold Workspace.captureDirectory at hok
      obtain ⟨state, hstate, h₁⟩ := except_bind_eq_ok.mp hok
      split at h₁
      · exact (hw.captureSynced hstate h₁).1
      · cases h₁
  | @captureLayer op expected changes provenance outcome r' hallowed hok =>
      have hperform : w.repository.perform op (.capture expected changes provenance) = .ok (outcome, r') := hok
      exact hrequest hperform (fun hactive _ => hallowed hactive)
  | @commitStack op expected source changes resolution provenance outcome r' hok =>
      have hperform : w.repository.perform op (.stack expected source changes resolution provenance) =
        .ok (outcome, r') := hok
      exact hrequest hperform (fun _ hsource => by cases hsource)
  | refresh hok =>
      cases of_refreshIn hok with
      | inl h =>
          rw [h]
          exact hw
      | inr h =>
          obtain ⟨head, objects, directory, hactive, hrun, hw'⟩ := h
          cases hw' with
          | inl h =>
              rw [h]
              exact hw.keep hrun rfl rfl rfl
          | inr h =>
              obtain ⟨⟨e, hlatest, _⟩, e', he', hcheckpoint⟩ := hs.live_of_active hactive
              obtain ⟨hget, _⟩ := Repository.latestIn_eq_ok.mp hlatest
              obtain rfl := Option.some.inj (hget.symm.trans he')
              have hlatest' : w'.repository.latestIn w'.layer = .ok (head.revision, e) := by
                rw [h]
                exact hlatest
              refine ⟨?_, Or.inr (contained_of_latest hlatest' ?_)⟩
              · rw [h]
                exact hw.reachable.run hrun
              · rw [h]
                exact congrArg some hcheckpoint.symm
  | elsewhere hstep hevents => exact hw.keep (.single hstep) rfl rfl hevents

theorem Opened.synchronised (h : w.Opened) : w.Synchronised := by
  obtain ⟨S, hs⟩ := h.reachable.sound.repository
  obtain ⟨head, hactive, hsync⟩ := h.synced
  obtain ⟨⟨e, hlatest, _⟩, e', he', hcheckpoint⟩ := hs.live_of_active hactive
  obtain ⟨hget, _⟩ := Repository.latestIn_eq_ok.mp hlatest
  obtain rfl := Option.some.inj (hget.symm.trans he')
  exact ⟨h.reachable, Or.inr (contained_of_latest hlatest (hcheckpoint.symm ▸ hsync))⟩

theorem Run.synchronised {operationId : LayerHead Id → SparseChanges Id → Option Provenance → OperationId}
    (h : Run operationId NotBehind w w') (hw : w.Synchronised) : w'.Synchronised := by
  induction h with
  | refl => exact hw
  | tail _ hstep ih => exact hstep.synchronised ih

/-- Whatever a capture scans, the directory was synchronised with a checkpoint that contains every
stacked revision. -/
theorem scanned_contains_stacked
    {operationId : LayerHead Id → SparseChanges Id → Option Provenance → OperationId} {w₀ : Workspace Id}
    (hopened : w₀.Opened) (hrun : Run operationId NotBehind w₀ w) {root : Option (Disk Str)}
    {provenance : Option Provenance} {capture : Capture Id}
    (hok : w.captureWorkspace operationId provenance = .ok (some capture, w') ∨
      w.captureDirectory operationId root provenance = .ok (capture, w'))
    (hscanned : capture.behind = false) : ∀ k, w.repository.stackedAt w.layer k = true → w.Contained k := by
  have hw := hrun.synchronised hopened.synchronised
  cases hok with
  | inl hok =>
      unfold Workspace.captureWorkspace at hok
      obtain ⟨state, hstate, h₁⟩ := except_bind_eq_ok.mp hok
      split at h₁
      · obtain ⟨⟨capture', w₁⟩, hcapture, hpure⟩ := except_bind_eq_ok.mp h₁
        obtain ⟨hsame, rfl⟩ := Prod.mk.inj (Except.ok.inj hpure)
        obtain rfl := Option.some.inj hsame
        exact (hw.captureSynced hstate hcapture).2 hscanned
      · obtain ⟨hnone, _⟩ := Prod.mk.inj (Except.ok.inj h₁)
        cases hnone
  | inr hok =>
      unfold Workspace.captureDirectory at hok
      obtain ⟨state, hstate, h₁⟩ := except_bind_eq_ok.mp hok
      split at h₁
      · exact (hw.captureSynced hstate h₁).2 hscanned
      · cases h₁

/-! ### An empty directory -/

/-- The empty directory. -/
def emptyDisk : Disk Str :=
  ⟨SortedMap.empty, fun p hp => absurd hp (by simp [SortedMap.keys, SortedMap.empty]),
    fun p hp => absurd hp (by simp [SortedMap.keys, SortedMap.empty])⟩

/-- An empty directory that is not behind is scanned, and all that the head added is taken away. -/
theorem exists_captured_empty (hw : w.system.Reachable) (hempty : w.directory = emptyDisk)
    {operationId : LayerHead Id → SparseChanges Id → Option Provenance → OperationId}
    {head : LayerHead Id} {checkpoint : LayerCheckpoint Id}
    (hactive : w.repository.layerStateIn w.layer = .ok (.active head)) (hbehind : ¬ w.Behind head)
    (hread : w.repository.checkpointIn head.checkpoint = .ok checkpoint)
    (hbase : checkpoint.base.version = 0) (hchanged : checkpoint.changes ≠ SparseChanges.empty)
    (hfresh : w.repository.layerAttempts.get? (operationId head SparseChanges.empty none) = none)
    (hroom : head.revision + 1 < REVISIONS) : ∃ capture w' next after,
      w.captureWorkspace operationId none = .ok (some capture, w') ∧ capture.behind = false ∧
      capture.update = some (.applied (.active next)) ∧
      w'.repository.checkpointIn next.checkpoint = .ok after ∧ after.changes = SparseChanges.empty := by
  obtain ⟨S, hs⟩ : ∃ S, w.repository.Sound S := hw.sound.repository
  have hf := (Repository.checkpointIn_eq_ok hs.chain).mp hread
  have hallDeep : Repository.AllDeep w.repository := hw.allDeep
  have hdeep : w.repository.readDeep head.checkpoint = .ok checkpoint := by
    rw [(hallDeep.deep hread).readDeep_eq]
    exact hread
  obtain ⟨m, hmanifest, _⟩ := hs.exists_checkpointManifest hf
  have hscan : w.repository.scanInto w.directory = .ok ((hashed w.directory).scan, w.repository) := by
    rw [hempty]
    rfl
  have hnothing : Refresh.changesFrom (S checkpoint.base.version) (hashed w.directory).scan =
      SparseChanges.empty := by
    apply SparseChanges.ext
    intro p
    rw [hbase, hs.chain.genesis]
    refine Refresh.get?_changesFrom_eq_none.mpr ?_
    rw [hempty, Disk.get?_scan]
    rfl
  have hnormal : w.repository.normalizeIn checkpoint.base.version SparseChanges.empty =
      .ok SparseChanges.empty := by
    rw [hbase]
    exact Repository.normalizeIn_empty hs.chain hs.chain.first
  have hlayer := (hs.verifyHead hactive).1
  obtain ⟨next, r', hcaptured⟩ := Repository.exists_captureLayer hs hfresh (hlayer.symm ▸ hactive) hread
    hnormal hroom
  obtain ⟨after, hafter, _, hchanges⟩ := hcaptured.changed
  have hat : w.repository.captureAt operationId head w.directory none =
      .ok (⟨some (.applied (.active next)), some (operationId head SparseChanges.empty none), head,
        SparseChanges.empty, false⟩, r') := by
    unfold Repository.captureAt
    rw [except_bind_of_ok hdeep, except_bind_of_ok (hs.chain.manifestAt_eq (hbase ▸ hs.chain.first)),
      hf.named, except_bind_of_ok hmanifest, except_bind_of_ok hscan]
    simp only
    rw [hnothing, if_neg (Ne.symm hchanged)]
    exact except_bind_of_ok hcaptured.captured
  have hsynced : w.captureSynced operationId head none none =
      .ok (⟨some (.applied (.active next)), some (operationId head SparseChanges.empty none), head,
        SparseChanges.empty, false⟩, { w.withRepository r' with sync := some next.checkpoint }) := by
    unfold captureSynced
    rw [if_neg hbehind]
    exact except_bind_of_ok hat
  refine ⟨⟨some (.applied (.active next)), some (operationId head SparseChanges.empty none), head,
    SparseChanges.empty, false⟩, { w.withRepository r' with sync := some next.checkpoint }, next, after, ?_, rfl,
    rfl, hafter, hchanges⟩
  unfold captureWorkspace
  rw [except_bind_of_ok hactive]
  exact except_bind_of_ok hsynced

/-! ### A stacked revision -/

/-- A map of operations has a fresh one. -/
theorem exists_fresh {β : Type} (m : SortedMap OperationId β) : ∃ op, m.get? op = none := by
  have hinfinite : Infinite OperationId := by
    apply Infinite.of_injective (fun n : ℕ => (⟨List.replicate n 97⟩ : OperationId))
    intro a b hab
    have htext := congrArg (fun op : OperationId => op.text.length) hab
    simpa using htext
  obtain ⟨op, hop⟩ := Infinite.exists_notMem_finset m.keys.toFinset
  refine ⟨op, ?_⟩
  rw [List.mem_toFinset, SortedMap.mem_keys, Bool.not_eq_true, Option.isSome_eq_false_iff,
    Option.isNone_iff_eq_none] at hop
  exact hop

/-- The changes of a Layer that adds one file. -/
def added : SparseChanges ℕ := longFiles 1 (.regular System.emptyBlob false)

theorem added_flat {p : List Name} {e : Option (FileEntry ℕ)} (h : added.flat p = some e) :
    e = some (.regular System.emptyBlob false) := by
  obtain ⟨_, _, _, rfl⟩ := (longFiles_flat (by decide) p e).mp h
  rfl

theorem added_ne_empty : added ≠ SparseChanges.empty := by
  intro h
  obtain ⟨n, hn⟩ : ∃ n, n ∈ longKeys 1 := ⟨_, List.mem_map.mpr ⟨0, by simp, rfl⟩⟩
  have hflat : added.flat [n] = some (some (.regular System.emptyBlob false)) :=
    (longFiles_flat (by decide) _ _).mpr ⟨n, hn, rfl, rfl⟩
  rw [h] at hflat
  cases hflat

/-- The file can be added to an empty World once its content is stored. -/
theorem normalizeIn_added {r : Repository ℕ} {S : VersionNumber → Manifest ℕ} (hs : r.Sound S)
    (hblob : r.objects.readBlob System.emptyBlob = .ok []) : r.normalizeIn 0 added = .ok added := by
  rw [Repository.normalizeIn_self hs.chain hs.chain.first, hs.chain.genesis]
  refine ⟨fun p e he => ?_, ?_⟩
  · obtain rfl := Option.some.inj (added_flat he)
    unfold Objects.validateEntry
    exact except_bind_of_ok hblob
  · apply Flat.exact_of_ne (longSnapshot_prefixFree (by decide))
    intro p e he hnone
    rw [added_flat he] at hnone
    cases hnone

/-- A repository in which one Layer's file was stacked into an empty Layer. -/
structure Example (r r' : Repository ℕ) (first head : LayerHead ℕ) : Prop where
  reachable : System.Reachable ⟨r, []⟩
  opened : r.layerStateIn first.layer = .ok (.active first)
  revision : first.revision = 0
  stack : ∃ op source frozen, r.checkpointIn source = .ok frozen ∧ frozen.changes = added ∧
    r.commitStack op first source added none none = .ok (.applied (.active head), r')
  layer : head.layer = first.layer
  numbered : head.revision = 1
  stacked : r'.stackedAt head.layer 1 = true
  active : r'.layerStateIn head.layer = .ok (.active head)
  changed : ∃ checkpoint, r'.checkpointIn head.checkpoint = .ok checkpoint ∧
    checkpoint.base.version = 0 ∧ checkpoint.changes = added
  unchanged : ∃ checkpoint, r.checkpointIn first.checkpoint = .ok checkpoint ∧
    checkpoint.changes = SparseChanges.empty
  blob : r'.objects.readBlob System.emptyBlob = .ok []

omit [LinearOrder Id] [Encoding Id] in
theorem of_applied {e : Event Id} {identity : Id} {layer : LayerId} {n : ℕ} {head : LayerHead Id}
    (h : LayerUpdate.applied (.active head) = .applied (e.state identity layer n)) :
    head.revision = n ∧ e.checkpoint = head.checkpoint := by
  have hstate := (LayerUpdate.applied.inj h).symm
  unfold Event.state at hstate
  split at hstate
  · cases hstate
  · obtain rfl := LayerState.active.inj hstate
    exact ⟨rfl, rfl⟩

theorem exists_example : ∃ r r' first head, Example r r' first head := by
  -- the Layer that is stacked into, and the content of the file
  obtain ⟨first, r₁, hcreated, hreach₁⟩ := System.exists_created (0 : ℕ) ⟨[97]⟩
  obtain ⟨S₁, hs₁⟩ := hreach₁.sound.repository
  obtain ⟨checkpoint₁, hread₁, hbase₁, hempty₁⟩ := hcreated.unchanged
  obtain ⟨objects, hput, hblob⟩ := System.exists_putBlob hs₁.chain.honest []
  have hstep₂ : System.Run (⟨r₁, []⟩ : System ℕ) ⟨{ r₁ with objects := objects }, []⟩ :=
    .single (.transact (.putBlob hput))
  have hreach₂ := hreach₁.run hstep₂
  obtain ⟨S₂, hs₂⟩ := hreach₂.sound.repository
  have hactive₂ : ({ r₁ with objects := objects } : Repository ℕ).layerStateIn first.layer =
      .ok (.active first) :=
    hs₁.active_of_same (hcreated.named ▸ hcreated.active) rfl rfl rfl
  -- the Layer that is stacked
  have hvalid : ({ r₁ with objects := objects } : Repository ℕ).validateBase
      ⟨r₁.identity, 0, versionId none emptyId SparseChanges.empty⟩ = .ok () :=
    (Repository.validateBase_eq_ok hs₂.chain).mpr ⟨rfl, _, hs₂.chain.first, rfl⟩
  have hnone : ∀ n, (({ r₁ with objects := objects } : Repository ℕ).events ⟨[98]⟩).get? n = none := by
    intro n
    show (r₁.events ⟨[98]⟩).get? n = none
    rw [hcreated.others ⟨[98]⟩ (by simp)]
    rfl
  obtain ⟨source₀, r₃, hcreated₃⟩ := Repository.exists_createLayer hs₂ hvalid hnone
  have hrun₃ : System.Run (⟨{ r₁ with objects := objects }, []⟩ : System ℕ) ⟨r₃, []⟩ :=
    .single (.transact (.createLayer hcreated₃.created))
  have hreach₃ := hreach₂.run hrun₃
  obtain ⟨S₃, hs₃⟩ := hreach₃.sound.repository
  obtain ⟨before₃, hread₃, hbase₃, _⟩ := hcreated₃.unchanged
  have hl₃ := (hrun₃.later hreach₂.sound).1
  have hblob₃ := hl₃.objects.readBlob _ _ hblob
  have hactive₃ : r₃.layerStateIn first.layer = .ok (.active first) :=
    hs₂.active_of_same hactive₂ hl₃.identity hcreated₃.publications
      (hcreated₃.others _ (by rw [hcreated.named]; simp))
  obtain ⟨op₄, hfresh₄⟩ := exists_fresh r₃.layerAttempts
  have hnormal₃ : r₃.normalizeIn before₃.base.version added = .ok added := by
    rw [hbase₃]
    exact normalizeIn_added hs₃ hblob₃
  obtain ⟨source, r₄, hcaptured⟩ := Repository.exists_captureLayer hs₃ hfresh₄
    (hcreated₃.named.symm ▸ hcreated₃.active) hread₃ hnormal₃ (by rw [hcreated₃.revision]; decide)
  have hperform : r₃.perform op₄ (.capture source₀ added none) = .ok (.applied (.active source), r₄) :=
    hcaptured.captured
  have hrun₄ : System.Run (⟨r₃, []⟩ : System ℕ) ⟨r₄, []⟩ :=
    .single (.transact (Repository.transaction_of_perform hperform))
  have hreach₄ := hreach₃.run hrun₄
  obtain ⟨S₄, hs₄⟩ := hreach₄.sound.repository
  have hl₄ := (hrun₄.later hreach₃.sound).1
  have hevents : r₄.events first.layer = r₃.events first.layer := by
    have hne : source₀.layer ≠ first.layer := by
      rw [hcreated₃.named, hcreated.named]
      simp
    cases Repository.moved_of_perform hs₃ hperform with
    | inl h => exact h.2.others _ hne
    | inr h => exact h.2 _
  have hactive₄ := hs₃.active_of_same hactive₃ hl₄.identity hcaptured.publications hevents
  have hread₄ : r₄.checkpointIn first.checkpoint = .ok checkpoint₁ :=
    hl₄.checkpointIn hs₃.chain hs₄.chain _ _ (hl₃.checkpointIn hs₂.chain hs₃.chain _ _
      ((hstep₂.later hreach₁.sound).1.checkpointIn hs₁.chain hs₂.chain _ _ hread₁))
  -- the Stack
  obtain ⟨op, hfresh⟩ := exists_fresh r₄.layerAttempts
  obtain ⟨frozen, hfrozen, _, hfrozen'⟩ := hcaptured.changed
  have hblob₄ := hl₄.objects.readBlob _ _ hblob₃
  have hnormal₄ : r₄.normalizeIn checkpoint₁.base.version added = .ok added := by
    rw [hbase₁]
    exact normalizeIn_added hs₄ hblob₄
  obtain ⟨head, r', hstack, hreplaced⟩ := Repository.exists_commitStack hs₄ hfresh hactive₄ hread₄ hnormal₄
    hfrozen (by rw [hcreated.revision]; decide)
  have hperform' : r₄.perform op (.stack first source.checkpoint added none none) =
    .ok (.applied (.active head), r') := hstack
  have hrun : System.Run (⟨r₄, []⟩ : System ℕ) ⟨r', []⟩ :=
    .single (.transact (Repository.transaction_of_perform hperform'))
  obtain ⟨_, hmoved⟩ := (Repository.moved_of_perform hs₄ hperform').resolve_right (fun h => h.1 hactive₄)
  have hstacked : r'.stackedAt first.layer (first.revision + 1) = true := hmoved.stacked
  obtain ⟨checkpoint, hread, hbase, hchanges⟩ := hreplaced.changed
  refine ⟨r₄, r', first, head, hreach₄, hactive₄, hcreated.revision, ⟨op, source.checkpoint, frozen, hfrozen,
    hfrozen', hstack⟩, hreplaced.named, ?_, ?_, hreplaced.active, ⟨checkpoint, hread, ?_, hchanges⟩,
    ⟨checkpoint₁, hread₄, hempty₁⟩, (hrun.later hreach₄.sound).1.objects.readBlob _ _ hblob₄⟩
  · obtain ⟨e, _, houtcome⟩ := hmoved.latest
    exact (of_applied houtcome).1.trans (by
      show first.revision + 1 = 1
      rw [hcreated.revision])
  · rw [hcreated.revision] at hstacked
    rw [hreplaced.named]
    exact hstacked
  · rw [hbase, hbase₁]

/-- A Layer into which a file was stacked, opened and emptied. -/
theorem scanned_contains_stacked_example : ∃ (w w' : Workspace ℕ) (capture : Capture ℕ) (op : OperationId),
    w.Opened ∧ w.captureWorkspace (fun _ _ _ => op) none = .ok (some capture, w') ∧
      capture.behind = false ∧ w.repository.stackedAt w.layer 1 = true ∧ w.Contained 1 := by
  obtain ⟨r, r', first, head, h⟩ := exists_example
  obtain ⟨stackOp, source, _, _, _, hstack⟩ := h.stack
  have hreach : System.Reachable ⟨r', []⟩ := h.reachable.run (.single (.transact (.commitStack hstack)))
  obtain ⟨checkpoint, hread, hbase, hchanges⟩ := h.changed
  obtain ⟨op, hfresh⟩ := exists_fresh r'.layerAttempts
  obtain ⟨w, hw⟩ : ∃ w : Workspace ℕ, w = ⟨head.layer, ⟨r', []⟩, some head.checkpoint, emptyDisk⟩ := ⟨_, rfl⟩
  have hactive : w.repository.layerStateIn w.layer = .ok (.active head) := hw ▸ h.active
  have hopened : w.Opened := ⟨hw ▸ hreach, head, hactive, by rw [hw]⟩
  obtain ⟨capture, w', _, _, hok, hscanned, _⟩ : ∃ capture w' next after,
      w.captureWorkspace (fun _ _ _ => op) none = .ok (some capture, w') ∧ capture.behind = false ∧
        capture.update = some (.applied (.active next)) ∧
        w'.repository.checkpointIn next.checkpoint = .ok after ∧ after.changes = SparseChanges.empty :=
    exists_captured_empty hopened.reachable (by rw [hw]) hactive (fun hb => hb.2 (by rw [hw]))
      (hw ▸ hread) hbase (hchanges ▸ added_ne_empty) (hw ▸ hfresh) (by rw [h.numbered]; decide)
  have hstacked : w.repository.stackedAt w.layer 1 = true := hw ▸ h.stacked
  have hcaptured : w.captureWorkspace (fun _ _ _ => op) none = .ok (some capture, w') ∨
      w.captureDirectory (fun _ _ _ => op) none none = .ok (capture, w') := Or.inl hok
  exact ⟨w, w', capture, op, hopened, hok, hscanned, hstacked,
    scanned_contains_stacked hopened .refl hcaptured hscanned 1 hstacked⟩

/-- A stacked revision that is captured again explicitly hides from the guard: the directory is scanned
without it, and the capture takes the stacked file away although nothing was edited. -/
theorem capture_reverts_stack : ∃ (operationId : LayerHead ℕ → SparseChanges ℕ → Option Provenance → OperationId)
    (w₀ w w' : Workspace ℕ) (capture : Capture ℕ) (e : Event ℕ) (stacked after : LayerCheckpoint ℕ)
    (next : LayerHead ℕ), w₀.Opened ∧ Run operationId (fun _ _ => True) w₀ w ∧ w.directory = w₀.directory ∧
      w.captureWorkspace operationId none = .ok (some capture, w') ∧ capture.behind = false ∧
      w.repository.stackedAt w.layer 1 = true ∧ ¬ w.Contained 1 ∧
      (w.repository.events w.layer).get? 1 = some e ∧
      w.repository.checkpointIn e.checkpoint = .ok stacked ∧ stacked.changes = added ∧
      capture.update = some (.applied (.active next)) ∧
      w'.repository.checkpointIn next.checkpoint = .ok after ∧ after.changes = SparseChanges.empty := by
  obtain ⟨r, r', first, head, h⟩ := exists_example
  obtain ⟨stackOp, source, _, _, _, hstack⟩ := h.stack
  have hrun : System.Run (⟨r, []⟩ : System ℕ) ⟨r', []⟩ := .single (.transact (.commitStack hstack))
  have hreach := h.reachable.run hrun
  obtain ⟨S, hs⟩ := h.reachable.sound.repository
  obtain ⟨S', hs'⟩ := hreach.sound.repository
  obtain ⟨checkpoint, hread, hbase, hchanges⟩ := h.changed
  obtain ⟨initial, hinitial, hempty⟩ := h.unchanged
  -- the head is captured once more, with the same changes
  obtain ⟨op, hfresh⟩ := exists_fresh r'.layerAttempts
  have hnormal : r'.normalizeIn checkpoint.base.version added = .ok added := by
    rw [hbase]
    exact normalizeIn_added hs' h.blob
  obtain ⟨again, r'', hcaptured⟩ := Repository.exists_captureLayer hs' hfresh h.active hread hnormal
    (by rw [h.numbered]; decide)
  have hperform : r'.perform op (.capture head added none) = .ok (.applied (.active again), r'') :=
    hcaptured.captured
  have hrun' : System.Run (⟨r', []⟩ : System ℕ) ⟨r'', []⟩ :=
    .single (.transact (Repository.transaction_of_perform hperform))
  have hreach' := hreach.run hrun'
  obtain ⟨S'', hs''⟩ := hreach'.sound.repository
  have hl := (hrun'.later hreach.sound).1
  obtain ⟨_, hmoved⟩ := (Repository.moved_of_perform hs' hperform).resolve_right (fun hno => hno.1 h.active)
  obtain ⟨after, hafter, hbase', hchanges'⟩ := hcaptured.changed
  obtain ⟨e₂, hlatest, houtcome⟩ := hmoved.latest
  obtain ⟨hrevision, hcheckpoint⟩ := of_applied houtcome
  have hnamed : again.layer = head.layer := hcaptured.named
  obtain ⟨⟨e₁, hlatest₁, _⟩, e', he', hcheckpoint₁⟩ := hs'.live_of_active h.active
  obtain ⟨hget₁, hmax₁⟩ := Repository.latestIn_eq_ok.mp hlatest₁
  obtain rfl := Option.some.inj (hget₁.symm.trans he')
  rw [h.numbered] at hget₁
  have hget : (r''.events first.layer).get? 1 = some e₁ := by
    rw [← h.layer]
    exact hl.events _ _ _ hget₁
  have hsecond : r''.stackedAt first.layer 2 = false := by
    have hstacked : r''.stackedAt head.layer (head.revision + 1) = false := hmoved.stacked
    rw [h.numbered, h.layer] at hstacked
    exact hstacked
  have hfirst : r''.stackedAt first.layer 1 = true := by
    rw [← h.layer, hl.stackedAt hs' hget₁]
    exact h.stacked
  -- the run
  obtain ⟨w₀, hw₀⟩ : ∃ w : Workspace ℕ, w = ⟨first.layer, ⟨r, []⟩, some first.checkpoint, emptyDisk⟩ := ⟨_, rfl⟩
  obtain ⟨w, hw⟩ : ∃ w : Workspace ℕ, w = ⟨first.layer, ⟨r'', []⟩, some first.checkpoint, emptyDisk⟩ := ⟨_, rfl⟩
  have hrepository : w.repository = r'' := by rw [hw]; rfl
  have hlayer : w.layer = first.layer := by rw [hw]
  have hopened : w₀.Opened := ⟨hw₀ ▸ h.reachable, first, hw₀ ▸ h.opened, by rw [hw₀]⟩
  have hactive : w.repository.layerStateIn w.layer = .ok (.active again) := by
    rw [hrepository, hlayer, ← h.layer, ← hnamed]
    exact hcaptured.active
  have hbehind : ¬ w.Behind again := by
    intro hb
    have hstacked : r''.stackedAt again.layer again.revision = true := hrepository ▸ hb.1
    have hnumber : again.revision = 2 := hrevision.trans (congrArg (· + 1) h.numbered)
    rw [hnamed, h.layer, hnumber, hsecond] at hstacked
    cases hstacked
  obtain ⟨op', hfresh'⟩ := exists_fresh r''.layerAttempts
  obtain ⟨capture, w', next, after', hok, hscanned, hupdate, hafter', hempty'⟩ : ∃ capture w' next after,
      w.captureWorkspace (fun _ _ _ => op') none = .ok (some capture, w') ∧ capture.behind = false ∧
        capture.update = some (.applied (.active next)) ∧
        w'.repository.checkpointIn next.checkpoint = .ok after ∧ after.changes = SparseChanges.empty :=
    exists_captured_empty (by rw [hw]; exact hreach') (by rw [hw]) hactive hbehind (by rw [hrepository]; exact hafter)
      (hbase'.symm ▸ hbase) (hchanges' ▸ added_ne_empty) (by rw [hrepository]; exact hfresh')
      (by rw [hrevision]; show head.revision + 1 + 1 < REVISIONS; rw [h.numbered]; decide)
  have hstep₁ : Step (fun _ _ _ => op') (fun _ _ => True) w₀ (w₀.withRepository r') := by
    rw [hw₀]
    exact .commitStack hstack
  have hstep₂ : Step (fun _ _ _ => op') (fun _ _ => True) (w₀.withRepository r') w := by
    have hsame : w = (w₀.withRepository r').withRepository r'' := by rw [hw, hw₀]; rfl
    rw [hsame]
    exact .captureLayer trivial hcaptured.captured
  have hread₁ : w.repository.checkpointIn e₁.checkpoint = .ok checkpoint := by
    rw [hrepository, hcheckpoint₁]
    exact hl.checkpointIn hs'.chain hs''.chain _ _ hread
  refine ⟨_, w₀, w, w', capture, e₁, checkpoint, after', next, hopened, .tail (.single hstep₁) hstep₂, ?_, hok,
    hscanned, ?_, ?_, ?_, hread₁, hchanges, hupdate, hafter', hempty'⟩
  · rw [hw, hw₀]
  · rw [hrepository, hlayer]
    exact hfirst
  · -- a later revision with the opened checkpoint would have its changes
    intro hcontained
    obtain ⟨m, e, hle, hm, hsync⟩ := hcontained
    have hsame : e.checkpoint = first.checkpoint := by
      rw [hw] at hsync
      exact (Option.some.inj hsync).symm
    have hnone : r''.checkpointIn e.checkpoint = .ok initial := by
      rw [hsame]
      exact hl.checkpointIn hs'.chain hs''.chain _ _
        ((hrun.later h.reachable.sound).1.checkpointIn hs.chain hs'.chain _ _ hinitial)
    rw [hrepository, hlayer, ← h.layer] at hm
    by_cases hmiddle : m = head.revision + 1
    · rw [hmiddle] at hm
      obtain rfl := Option.some.inj ((Repository.latestIn_eq_ok.mp hlatest).1.symm.trans hm)
      rw [hcheckpoint, hafter] at hnone
      rw [Except.ok.inj hnone, hempty] at hchanges'
      exact added_ne_empty hchanges'.symm
    · have hold := hmoved.kept m e hm hmiddle
      have hmax := hmax₁ m e hold
      have hone : m = 1 := by
        rw [h.numbered] at hmax
        omega
      rw [hone] at hold
      obtain rfl := Option.some.inj (hget₁.symm.trans hold)
      rw [← hrepository, hread₁] at hnone
      rw [Except.ok.inj hnone, hempty] at hchanges
      exact added_ne_empty hchanges.symm
  · rw [hrepository, hlayer]
    exact hget

end Workspace

end Javelin
