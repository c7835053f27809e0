import Javelin.Ancestry
import Javelin.Progress
import Javelin.Publishes
import Javelin.Stack

/-! # What a Stack commits

Whatever other clients do between its transactions, a Stack without choices that moves its target Layer
imports exactly the source's changes: `Imported` says path by path what the committed checkpoint holds
(`Reachable.stack_imports`).  Every step before the commit only stores objects (`Quiet`), so a Stack that
ends in a conflict, an unused choice or a refusal leaves every Layer and every operation as it was. -/

namespace Javelin

open KeyedList Merge

/-! ### Clean merges -/

namespace Merge

section clean
variable {Id σ E : Type} [DecidableEq Id] {base ours theirs : Manifest Id} {content : Id → Str}

/-- A row that is no conflict has its three-way value, whatever the probe reports. -/
theorem DecidedRows.outcome_of_clean {rows : List (Row Id)} (h : DecidedRows content base ours theirs rows)
    {partners : SortedMap RepoPath RepoPath} {analysis : Analysis} {row : Row Id} (hm : row ∈ rows)
    (hclean : ∀ c, row.outcome partners analysis ≠ some (.inl c)) :
    row.outcome partners analysis = (value content row.sides).map Sum.inr := by
  have hcases := outcome_cases partners analysis row
  rcases h.result hm with ⟨_, kind, hr⟩ | ⟨_, _, hr⟩
  · rw [hr] at hcases
    rcases hcases with ⟨hk, _⟩ | ⟨c, hc, _⟩ | ⟨m, _, hk, _⟩
    · cases hk
    · exact absurd hc (hclean c)
    · cases hk
  · rw [hr] at hcases
    cases hval : value content row.sides with
    | none =>
        rw [hval] at hcases
        rcases hcases with ⟨_, ho⟩ | ⟨c, hc, _⟩ | ⟨m, _, hk, _⟩
        · exact ho
        · exact absurd hc (hclean c)
        · cases hk
    | some m =>
        rw [hval] at hcases
        rcases hcases with ⟨hk, _⟩ | ⟨c, hc, _⟩ | ⟨m', ho, hk, _⟩
        · cases hk
        · exact absurd hc (hclean c)
        · cases hk
          exact ho

/-- Without choices a merge without conflicts gives every path its three-way value. -/
theorem mergeResolved_clean {aliases : List RepoPath → Caller σ E (List RepoPath)} {load : Id → Caller σ E Str}
    (hload : Reads load content) {s s' : σ} {outcome : MergeOutcome Id}
    (hok : mergeResolved base ours theirs SortedMap.empty aliases load s = .ok (outcome, s'))
    (hclean : outcome.conflicts = []) (p : RepoPath) :
    outcome.merged.get? p = value content (sidesOf base ours theirs p) := by
  obtain ⟨usage, _, h₁⟩ := except_bind_eq_ok.mp hok
  obtain ⟨⟨rows, t⟩, hrows, h₂⟩ := except_bind_eq_ok.mp h₁
  obtain ⟨⟨⟨rows', applied, analysis⟩, t'⟩, hsettle, hout⟩ := except_bind_eq_ok.mp h₂
  cases hout
  have hdecided := decidedRows_of_threeWay hload hrows
  obtain rfl : rows = rows' := by
    obtain ⟨analysis', u, _, hpure⟩ := bind_eq_ok.mp hsettle
    exact (Prod.mk.inj (pure_eq_ok.mp hpure).1).1
  have hrow : ∀ row ∈ rows, row.outcome (partnersOf base ours theirs) analysis =
      (value content row.sides).map Sum.inr := by
    intro row hm
    refine hdecided.outcome_of_clean hm (fun c hc => ?_)
    have hmem : c ∈ (outcomeOf SortedMap.empty (partnersOf base ours theirs) t.2 rows applied analysis).conflicts :=
      mem_conflicts.mpr ⟨row, hm, hc⟩
    rw [hclean] at hmem
    cases hmem
  refine Option.ext (fun m => ?_)
  rw [merged_iff hdecided.nodup]
  constructor
  · intro h
    obtain ⟨row, hm, rfl, ho⟩ := h
    rw [hrow row hm, hdecided.sides row hm, Option.map_eq_some_iff] at ho
    obtain ⟨m', hval, hm'⟩ := ho
    cases hm'
    exact hval
  · intro hv
    have hmem : p ∈ allPaths base ours theirs := by
      rw [mem_allPaths]
      by_contra hnot
      simp only [not_or, not_mem_iff_get?_none] at hnot
      obtain ⟨_, ho, ht⟩ := hnot
      unfold value sidesOf mergedFile at hv
      simp [ho, ht] at hv
    obtain ⟨row, hm, rfl⟩ := hdecided.exists_row hmem
    refine ⟨row, hm, rfl, ?_⟩
    rw [hrow row hm, hdecided.sides row hm, hv]
    rfl

end clean

end Merge

variable {Id : Type} [LinearOrder Id] [Encoding Id]

/-! ### The commit -/

namespace Repository
variable {r r' : Repository Id} {S S' : VersionNumber → Manifest Id}

/-- A Stack that moves its target's Layer: the new head, and its checkpoint. -/
structure Stacks (r r' : Repository Id) (target : LayerHead Id) (source : Id) (changes : SparseChanges Id)
    (head : LayerHead Id) (before frozen after : LayerCheckpoint Id) : Prop where
  active : r'.layerStateIn target.layer = .ok (.active head)
  readsTarget : r.checkpointIn target.checkpoint = .ok before
  readsSource : r.checkpointIn source = .ok frozen
  readsHead : r'.checkpointIn head.checkpoint = .ok after
  base : after.base = before.base
  sources : after.sources = sortDedup (before.sources ++ [source])
  normalized : r.normalizeIn before.base.version changes = .ok after.changes

theorem stacks_of_commitStack (hs : Sound r S) {op : OperationId} {target : LayerHead Id} {source : Id}
    {changes : SparseChanges Id} {resolution : Option Id} {provenance : Option Provenance}
    {update : LayerUpdate Id}
    (hok : r.commitStack op target source changes resolution provenance = .ok (update, r'))
    (hmoved : r'.events target.layer ≠ r.events target.layer) :
    ∃ head before frozen after, update = .applied (.active head) ∧
      Stacks r r' target source changes head before frozen after := by
  obtain ⟨_, hs'⟩ := commitStack_sound hs hok
  unfold commitStack at hok
  obtain ⟨_, _, h₁⟩ := except_bind_eq_ok.mp hok
  obtain ⟨_, hopen, h₂⟩ := except_bind_eq_ok.mp h₁
  obtain ⟨frozen, hfrozen, h₃⟩ := except_bind_eq_ok.mp h₂
  obtain ⟨before, hbefore, h₄⟩ := except_bind_eq_ok.mp h₃
  obtain ⟨⟨candidate, r₀⟩, hprep, hupdated⟩ := except_bind_eq_ok.mp h₄
  obtain ⟨objects, rfl, hp, _, hnormal⟩ := of_prepareCheckpoint hprep
  cases of_updateIn hupdated with
  | inl h =>
      obtain ⟨rfl, _⟩ := h
      exact absurd rfl hmoved
  | inr h =>
      obtain ⟨revision, current, accepted, result, hrec⟩ := h
      cases accepted with
      | false =>
          rw [hrec.events, if_neg (by simp)] at hmoved
          exact absurd rfl hmoved
      | true =>
          obtain ⟨hlatest, hout⟩ := hrec.applied
          have hfree : r'.successOf target.layer = none := by
            have hnone := of_refusePublished hs hopen hrec.fresh
            unfold successOf at hnone ⊢
            rw [hrec.only.publications]
            exact hnone
          obtain ⟨a, _, _, verified, _, hv⟩ := of_layerOutcome hrec.outcome
          have ha := hv.attempt
          rw [hrec.layerAttempts, SortedMap.get?_insert, if_pos rfl] at ha
          obtain rfl := Option.some.inj ha
          have hread : r'.checkpointIn candidate.id = .ok verified := hv.checkpoint
          have hstored := ((checkpointIn_eq_ok hs'.chain).mp hread).stored
          have hsame := Except.ok.inj (hstored.symm.trans (hrec.only.objects.readCheckpoint _ _ hp.stored))
          obtain ⟨hbase, hchanges, hsources, _⟩ := EncodedCheckpoint.mk.inj hsame
          refine ⟨⟨r'.identity, target.layer, revision + 1, candidate.id⟩, before, frozen, verified, hout,
            ⟨?_, hbefore, hfrozen, hread, hbase, hsources, hchanges ▸ hnormal⟩⟩
          rw [layerStateIn_of_open hfree]
          exact latestEventStateIn_eq_ok.mpr ⟨_, _, hlatest, rfl⟩

/-- The committed checkpoint's files are the merged ones. -/
theorem Stacks.checkpointManifest (hs : Sound r S) (hs' : Sound r' S') (hl : Later r r') {target head : LayerHead Id}
    {source : Id} {before frozen after : LayerCheckpoint Id} {base merged : Manifest Id}
    (h : Stacks r r' target source (Refresh.changesFrom base merged) head before frozen after)
    (hbase : r.manifestAt before.base.version = .ok base) :
    r'.checkpointManifest head.checkpoint = .ok merged := by
  have hf := (checkpointIn_eq_ok hs'.chain).mp h.readsHead
  obtain ⟨m, hm, hflat⟩ := hs'.exists_checkpointManifest hf
  have hread := hbase
  unfold Repository.manifestAt at hread
  obtain ⟨v, hv, _⟩ := except_bind_eq_ok.mp hread
  have hv := hs.chain.versionIn_eq_ok.mp hv
  obtain rfl := Except.ok.inj (hbase.symm.trans (hs.chain.manifestAt_eq hv))
  obtain ⟨_, _, _, hafter⟩ := (normalizeIn_eq_ok hs.chain hv).mp h.normalized
  have hover : ((S before.base.version).flat.over (Refresh.changesFrom (S before.base.version) merged).flat) =
      merged.flat := by
    have hdiff : (Refresh.changesFrom (S before.base.version) merged).flat =
        Flat.diff (S before.base.version).flat merged.flat := by
      funext p
      show (Refresh.changesFrom (S before.base.version) merged).entries.get? ⟨p⟩ = _
      cases hp : (Refresh.changesFrom (S before.base.version) merged).entries.get? ⟨p⟩ with
      | none => exact (Flat.diff_eq_none.mpr (Refresh.get?_changesFrom_eq_none.mp hp)).symm
      | some change =>
          obtain ⟨hne, hchange⟩ := Refresh.get?_changesFrom.mp hp
          exact (Flat.diff_eq_some.mpr ⟨hne, hchange⟩).symm
    rw [hdiff, Flat.over_diff]
  rw [hover] at hafter
  rw [h.base, hl.snapshot hs.chain hs'.chain hv, hafter, Flat.over_diff] at hflat
  rw [hm, Manifest.flat_injective hflat]

end Repository

/-! ### Quiet steps -/

namespace Stack

omit [LinearOrder Id] [Encoding Id] in
theorem storage_eq_ok {α : Type} {x : Except (Error Id) α} {a : α} : storage x = .ok a ↔ x = .ok a :=
  mapError_eq_ok

/-- A step that only stores objects. -/
structure Quiet (s s' : System Id) : Prop where
  run : System.Run s s'
  objects : ∃ objects, s' = ⟨{ s.repository with objects := objects }, s.plans⟩

@[refl] theorem Quiet.refl (s : System Id) : Quiet s s := ⟨.refl, s.repository.objects, rfl⟩

section calm
variable {rely : System Id → System Id → Prop} {α β : Type}

/-- Whatever the others do, all steps are quiet. -/
def Calm (rely : System Id → System Id → Prop) (p : StackM Id α) : Prop :=
  ∀ s own result s', p.Ends rely s own result s' → ∀ step ∈ own, Quiet step.1 step.2

/-- A step that is not quiet is the commit of an update. -/
def CalmUnlessUpdated (rely : System Id → System Id → Prop) (p : StackM Id (StackOutcome Id)) : Prop :=
  ∀ s own result s', p.Ends rely s own result s' → (∀ update, result ≠ .ok (.updated update)) →
    ∀ step ∈ own, Quiet step.1 step.2

theorem Calm.unlessUpdated {p : StackM Id (StackOutcome Id)} (h : Calm rely p) : CalmUnlessUpdated rely p :=
  fun s own result s' hends _ => h s own result s' hends

theorem calm_done (result : Except (StackError Id) α) : Calm rely (.done result) := by
  intro s own answer s' h
  obtain ⟨_, rfl, _⟩ := Process.ends_done h
  exact fun step hm => by cases hm

theorem Calm.bind (hrefl : ∀ s, rely s s) {p : StackM Id α} {f : α → StackM Id β} (hp : Calm rely p)
    (hf : ∀ a, Calm rely (f a)) : Calm rely (p >>= f) := by
  intro s own result s' h
  cases Process.ends_bind hrefl h with
  | inl herror =>
      obtain ⟨e, _, hends⟩ := herror
      exact hp _ _ _ _ hends
  | inr hok =>
      obtain ⟨a, s₁, own₁, own₂, rfl, hfirst, hrest⟩ := hok
      exact fun step hm => (List.mem_append.mp hm).elim (hp _ _ _ _ hfirst step) (hf a _ _ _ _ hrest step)

theorem Calm.bind_unlessUpdated (hrefl : ∀ s, rely s s) {p : StackM Id α} {f : α → StackM Id (StackOutcome Id)}
    (hp : Calm rely p) (hf : ∀ a, CalmUnlessUpdated rely (f a)) : CalmUnlessUpdated rely (p >>= f) := by
  intro s own result s' h hne
  cases Process.ends_bind hrefl h with
  | inl herror =>
      obtain ⟨e, _, hends⟩ := herror
      exact hp _ _ _ _ hends
  | inr hok =>
      obtain ⟨a, s₁, own₁, own₂, rfl, hfirst, hrest⟩ := hok
      exact fun step hm => (List.mem_append.mp hm).elim (hp _ _ _ _ hfirst step) (hf a _ _ _ _ hrest hne step)

theorem calm_read (f : System Id → Except (StackError Id) α) : Calm rely (.read () f) := by
  intro s own result s' h step hm
  obtain ⟨s₁, _, _, rfl, _⟩ := Process.ends_read h
  rw [List.mem_singleton.mp hm]

omit [LinearOrder Id] [Encoding Id] in
/-- A transaction that writes leaves what it computes, or nothing. -/
theorem ends_writing {f : Repository Id → Except (Error Id) (α × Repository Id)} {s s' : System Id}
    {own : List (System Id × System Id)} {result : Except (StackError Id) α}
    (h : (writing f).Ends rely s own result s') :
    ∃ s₁ s₂, rely s s₁ ∧ rely s₂ s' ∧ own = [(s₁, s₂)] ∧
      ((∃ e, f s₁.repository = .error e ∧ s₂ = s₁ ∧ result = .error (.storage (.error e))) ∨
        ∃ a r, f s₁.repository = .ok (a, r) ∧ s₂ = ⟨r, s₁.plans⟩ ∧ result = .ok a) := by
  obtain ⟨s₁, hr, hr', rfl, rfl⟩ := Process.ends_transact h
  refine ⟨s₁, _, hr, hr', rfl, ?_⟩
  unfold Process.written
  beta_reduce
  cases hf : f s₁.repository with
  | error e => exact .inl ⟨e, rfl, rfl, rfl⟩
  | ok p => exact .inr ⟨p.1, p.2, rfl, rfl, rfl⟩

/-- A stored blob reads back. -/
theorem ends_putBlob {bytes : Str} {s s' : System Id} {own : List (System Id × System Id)}
    {result : Except (StackError Id) Id} (h : (putBlob bytes).Ends rely s own result s') :
    ∃ s₁ s₂, rely s s₁ ∧ Quiet s₁ s₂ ∧ rely s₂ s' ∧ own = [(s₁, s₂)] ∧
      ∀ id, result = .ok id → s₂.repository.objects.readBlob id = .ok bytes := by
  obtain ⟨s₁, s₂, hr, hr', rfl, ⟨e, _, rfl, rfl⟩ | ⟨id, r, hput, rfl, rfl⟩⟩ := ends_writing h
  · exact ⟨s₂, s₂, hr, .refl _, hr', rfl, fun id hid => by cases hid⟩
  · have hstore := hput
    unfold Repository.putBlob Repository.store at hstore
    obtain ⟨⟨id', objects⟩, hinsert, hpure⟩ := except_bind_eq_ok.mp hstore
    obtain ⟨rfl, rfl⟩ := Prod.mk.inj (Except.ok.inj hpure)
    refine ⟨s₁, _, hr, ⟨.single (.transact (.putBlob hput)), objects, rfl⟩, hr', rfl, fun id hid => ?_⟩
    obtain rfl := Except.ok.inj hid
    exact Objects.readBlob_of_insert hinsert

theorem calm_putBlob (bytes : Str) : Calm rely (putBlob bytes : StackM Id Id) := by
  intro s own result s' h step hm
  obtain ⟨s₁, s₂, _, hquiet, _, rfl, _⟩ := ends_putBlob h
  rw [List.mem_singleton.mp hm]
  exact hquiet

variable (hrefl : ∀ s, rely s s)
include hrefl

theorem calm_storeChoices (choices : List (RepoPath × Choice)) : Calm rely (storeChoices choices : StackM Id _) := by
  induction choices with
  | nil => exact calm_done _
  | cons c choices ih =>
      refine Calm.bind hrefl ?_ (fun resolution => ih.bind hrefl (fun rest => calm_done _))
      cases c.2 with
      | ours => exact calm_done _
      | theirs => exact calm_done _
      | content bytes executable => exact (calm_putBlob bytes).bind hrefl (fun content => calm_done _)

theorem calm_resolutionOf (host : Host Id) (choices : SortedMap RepoPath Choice) :
    Calm rely (resolutionOf host choices) := by
  unfold resolutionOf
  split
  · exact calm_done _
  · refine Calm.bind hrefl ?_ (fun id => calm_done _)
    exact (calm_storeChoices hrefl _).bind hrefl (fun resolutions => calm_putBlob _)

theorem calm_storeEntry (m : Merged Id) : Calm rely (storeEntry m) := by
  cases m with
  | retained entry => exact calm_done _
  | content bytes executable => exact (calm_putBlob bytes).bind hrefl (fun content => calm_done _)

theorem calm_storeEntries (results : List (RepoPath × Merged Id)) : Calm rely (storeEntries results) := by
  induction results with
  | nil => exact calm_done _
  | cons e results ih =>
      exact (calm_storeEntry hrefl e.2).bind hrefl (fun entry => ih.bind hrefl (fun rest => calm_done _))

theorem calm_commitMerged (host : Host Id) (operation : OperationId) (target : LayerHead Id) (source : Id)
    (resolution : Option Id) (ours : LayerCheckpoint Id) (outcome : MergeOutcome Id) :
    CalmUnlessUpdated rely (commitMerged host operation target source resolution ours outcome) := by
  refine (calm_storeEntries hrefl _).bind_unlessUpdated hrefl (fun entries => ?_)
  cases Manifest.ofMap (SortedMap.ofList entries) with
  | error e => exact (calm_done _).unlessUpdated
  | ok merged =>
      refine (calm_read _).bind_unlessUpdated hrefl (fun targetBase => ?_)
      intro s own result s' h hne
      cases Process.ends_bind hrefl h with
      | inl herror =>
          obtain ⟨e, rfl, hends⟩ := herror
          obtain ⟨s₁, s₂, _, _, rfl, ⟨_, _, rfl, _⟩ | ⟨_, _, _, _, hok⟩⟩ := ends_writing hends
          · intro step hm
            rw [List.mem_singleton.mp hm]
          · cases hok
      | inr hok =>
          obtain ⟨update, s₁, own₁, own₂, rfl, _, hrest⟩ := hok
          obtain ⟨rfl, _, _⟩ := Process.ends_done hrest
          exact absurd rfl (hne update)

/-- Unless the Stack answers with an update, it only stores objects. -/
theorem calm_stackLayerResolved (host : Host Id) (operation : OperationId) (target : LayerHead Id) (source : Id)
    (choices : SortedMap RepoPath Choice) :
    CalmUnlessUpdated rely (stackLayerResolved host operation target source choices) := by
  refine (calm_resolutionOf hrefl host choices).bind_unlessUpdated hrefl (fun resolution => ?_)
  refine (calm_read _).bind_unlessUpdated hrefl (fun recorded => ?_)
  cases recorded with
  | some update => exact (calm_done _).unlessUpdated
  | none =>
      refine (calm_read _).bind_unlessUpdated hrefl (fun ours => ?_)
      refine (calm_read _).bind_unlessUpdated hrefl (fun theirs => ?_)
      refine (calm_read _).bind_unlessUpdated hrefl (fun base => ?_)
      refine (calm_read _).bind_unlessUpdated hrefl (fun oursManifest => ?_)
      refine (calm_read _).bind_unlessUpdated hrefl (fun theirsManifest => ?_)
      refine (calm_read _).bind_unlessUpdated hrefl (fun outcome => ?_)
      unfold finish
      split
      · exact (calm_done _).unlessUpdated
      · split
        · exact (calm_done _).unlessUpdated
        · exact calm_commitMerged hrefl host operation target source resolution ours outcome

end calm

/-! ### What is imported -/

/-- An entry holds a merged result: it is the retained one, or its content is stored. -/
def Holds (r : Repository Id) : Merged Id → FileEntry Id → Prop
  | .retained kept, entry => entry = kept
  | .content bytes executable, entry =>
      ∃ id, entry = .regular id executable ∧ r.objects.readBlob id = .ok bytes

/-- The bytes of a blob, where it is stored. -/
def contentOf (r : Repository Id) (id : Id) : Str :=
  match r.objects.readBlob id with
  | .ok bytes => bytes
  | .error _ => []

/-- What a Stack of `frozen` on top of `before` has imported: `base` is the World below the source, `ours` and
`theirs` are the files of the two checkpoints. -/
structure Imported (r : Repository Id) (before frozen after : LayerCheckpoint Id)
    (base ours theirs merged : Manifest Id) : Prop where
  kept : after.base = before.base
  sorted : after.sources.IsChain (· < ·)
  sources : ∀ id, id ∈ after.sources ↔ id ∈ before.sources ∨ id = frozen.id
  unchanged : ∀ p, theirs.entries.get? p = base.entries.get? p → merged.entries.get? p = ours.entries.get? p
  changed : ∀ p, theirs.entries.get? p ≠ base.entries.get? p → ours.entries.get? p = base.entries.get? p →
    merged.entries.get? p = theirs.entries.get? p
  follows : ∀ p, Option.Rel (Holds r) (value (contentOf r) (sidesOf base ours theirs p)) (merged.entries.get? p)

section imports
variable {rely : System Id → System Id → Prop} {α : Type} {s s' a b : System Id} {own : List (System Id × System Id)}

theorem Quiet.events (h : Quiet s s') (layer : LayerId) : s'.repository.events layer = s.repository.events layer := by
  obtain ⟨objects, rfl⟩ := h.objects
  rfl

theorem Holds.run (h : s.Reachable) (hr : System.Run s s') {m : Merged Id} {entry : FileEntry Id}
    (hh : Holds s.repository m entry) : Holds s'.repository m entry := by
  cases m with
  | retained kept => exact hh
  | content bytes executable =>
      obtain ⟨id, rfl, hread⟩ := hh
      exact ⟨id, rfl, (hr.later h.sound).1.objects.readBlob id _ hread⟩

/-- A step that is not quiet is not one of a calm first part. -/
theorem Calm.of_bind (hrefl : ∀ s, rely s s) {p : StackM Id α} (hp : Calm rely p)
    {f : α → StackM Id (StackOutcome Id)} {result : Except (StackError Id) (StackOutcome Id)}
    (h : (p >>= f).Ends rely s own result s') (hm : (a, b) ∈ own) (hloud : ¬ Quiet a b) :
    ∃ x s₁ own₁ own₂, p.Ends rely s own₁ (.ok x) s₁ ∧ (a, b) ∈ own₂ ∧ (f x).Ends rely s₁ own₂ result s' := by
  cases Process.ends_bind hrefl h with
  | inl herror =>
      obtain ⟨e, _, hends⟩ := herror
      exact absurd (hp _ _ _ _ hends _ hm) hloud
  | inr hok =>
      obtain ⟨x, s₁, own₁, own₂, rfl, hfirst, hrest⟩ := hok
      cases List.mem_append.mp hm with
      | inl hm => exact absurd (hp _ _ _ _ hfirst _ hm) hloud
      | inr hm => exact ⟨x, s₁, own₁, own₂, hfirst, hm, hrest⟩

theorem of_read_bind (hrefl : ∀ s, rely s s) {f : System Id → Except (StackError Id) α}
    {g : α → StackM Id (StackOutcome Id)} {result : Except (StackError Id) (StackOutcome Id)}
    (h : (Process.read () f >>= g).Ends rely s own result s') (hm : (a, b) ∈ own) (hloud : ¬ Quiet a b) :
    ∃ x s₀ s₁ own₂, rely s s₀ ∧ f s₀ = .ok x ∧ rely s₀ s₁ ∧ (a, b) ∈ own₂ ∧ (g x).Ends rely s₁ own₂ result s' := by
  obtain ⟨x, s₁, own₁, own₂, hfirst, hm, hrest⟩ := (calm_read f).of_bind hrefl h hm hloud
  obtain ⟨s₀, hr, hr', _, hx⟩ := Process.ends_read hfirst
  exact ⟨x, s₀, s₁, own₂, hr, hx.symm, hr', hm, hrest⟩

variable (hrefl : ∀ s, rely s s) (hrely : ∀ s s', rely s s' → System.Run s s')
include hrefl hrely

omit hrefl in
theorem run_of_calm {p : StackM Id α} (hp : Calm rely p) {result : Except (StackError Id) α}
    (h : p.Ends rely s own result s') : System.Run s s' :=
  h.within (fun _ _ _ h h' => h.trans h') hrely (fun step hm => (hp _ _ _ _ h step hm).run)

theorem holds_storeEntry (h : s.Reachable) {m : Merged Id} {entry : FileEntry Id}
    (hends : (storeEntry m).Ends rely s own (.ok entry) s') : Holds s'.repository m entry := by
  cases m with
  | retained kept =>
      obtain ⟨hentry, _, _⟩ := Process.ends_done hends
      exact Except.ok.inj hentry
  | content bytes executable =>
      cases Process.ends_bind hrefl hends with
      | inl herror =>
          obtain ⟨e, he, _⟩ := herror
          cases he
      | inr hok =>
          obtain ⟨id, s₁, own₁, own₂, _, hput, hrest⟩ := hok
          obtain ⟨hentry, _, hr⟩ := Process.ends_done hrest
          obtain ⟨t, t', ht, hquiet, ht', _, hread⟩ := ends_putBlob hput
          have hreach : t'.Reachable := (h.run (hrely _ _ ht)).run hquiet.run
          have hrun : System.Run t' s' := (hrely _ _ ht').trans (hrely _ _ hr)
          refine Holds.run hreach hrun ⟨id, Except.ok.inj hentry, hread id rfl⟩

/-- The stored entries hold the merged results, path by path. -/
theorem holds_storeEntries (h : s.Reachable) {results : List (RepoPath × Merged Id)}
    {entries : List (RepoPath × FileEntry Id)} (hends : (storeEntries results).Ends rely s own (.ok entries) s') :
    List.Forall₂ (fun result entry => entry.1 = result.1 ∧ Holds s'.repository result.2 entry.2) results entries := by
  induction results generalizing s s' own entries with
  | nil =>
      obtain ⟨hentries, _, _⟩ := Process.ends_done hends
      obtain rfl := Except.ok.inj hentries
      exact .nil
  | cons e results ih =>
      obtain ⟨path, m⟩ := e
      cases Process.ends_bind hrefl hends with
      | inl herror =>
          obtain ⟨_, he, _⟩ := herror
          cases he
      | inr hok =>
          obtain ⟨entry, s₁, own₁, own₂, _, hfirst, hrest⟩ := hok
          have hreach : s₁.Reachable := h.run (run_of_calm hrely (calm_storeEntry hrefl m) hfirst)
          cases Process.ends_bind hrefl hrest with
          | inl herror =>
              obtain ⟨_, he, _⟩ := herror
              cases he
          | inr hok =>
              obtain ⟨rest, s₂, own₃, own₄, _, hsecond, hlast⟩ := hok
              obtain ⟨hentries, _, hr⟩ := Process.ends_done hlast
              obtain rfl := Except.ok.inj hentries
              have hrun : System.Run s₁ s₂ := run_of_calm hrely (calm_storeEntries hrefl results) hsecond
              have hreach₂ : s₂.Reachable := hreach.run hrun
              refine .cons ⟨rfl, ?_⟩ ?_
              · exact (holds_storeEntry hrefl hrely h hfirst).run hreach (hrun.trans (hrely _ _ hr))
              · exact (ih hreach hsecond).imp (fun _ _ hh => ⟨hh.1, hh.2.run hreach₂ (hrely _ _ hr)⟩)

/-- The commit of a merged outcome: its entries, and what is committed. -/
theorem of_commitMerged (h : s.Reachable) {host : Host Id} {operation : OperationId} {target : LayerHead Id} {source : Id}
    {resolution : Option Id} {ours : LayerCheckpoint Id} {outcome : MergeOutcome Id}
    {result : Except (StackError Id) (StackOutcome Id)}
    (hends : (commitMerged host operation target source resolution ours outcome).Ends rely s own result s')
    (hm : (a, b) ∈ own) (hloud : ¬ Quiet a b) :
    System.Run s a ∧ System.Run a b ∧ ∃ entries targetBase merged update,
      List.Forall₂ (fun result entry => entry.1 = result.1 ∧ Holds a.repository result.2 entry.2)
        outcome.merged.toList entries ∧
      Manifest.ofMap (SortedMap.ofList entries) = .ok merged ∧
      a.repository.manifestAt ours.base.version = .ok targetBase ∧
      a.repository.commitStack operation target source (Refresh.changesFrom targetBase merged) resolution
        host.provenance = .ok (update, b.repository) ∧ result = .ok (.updated update) := by
  obtain ⟨entries, s₁, own₁, own₂, hstore, hm, hrest⟩ := (calm_storeEntries hrefl _).of_bind hrefl hends hm hloud
  have hrun₁ : System.Run s s₁ := run_of_calm hrely (calm_storeEntries hrefl _) hstore
  have hholds := holds_storeEntries hrefl hrely h hstore
  cases hmerged : Manifest.ofMap (SortedMap.ofList entries) with
  | error e =>
      rw [hmerged] at hrest
      obtain ⟨_, rfl, _⟩ := Process.ends_done hrest
      cases hm
  | ok merged =>
      rw [hmerged] at hrest
      obtain ⟨targetBase, s₂, s₃, own₃, hr₂, hbase, hr₃, hm, hrest⟩ := of_read_bind hrefl hrest hm hloud
      have hbase : s₂.repository.manifestAt ours.base.version = .ok targetBase := storage_eq_ok.mp hbase
      have hwrites : ∀ {t t' own result}, (writing (fun r => r.commitStack operation target source
          (Refresh.changesFrom targetBase merged) resolution host.provenance) : StackM Id _).Ends rely t own result t' →
          (a, b) ∈ own → System.Run t a ∧ System.Run a b ∧ ∃ update, a.repository.commitStack operation target source
            (Refresh.changesFrom targetBase merged) resolution host.provenance = .ok (update, b.repository) ∧
            result = .ok update := by
        intro t t' own result hends hm
        obtain ⟨u, u', hr, _, rfl, hcases⟩ := ends_writing hends
        obtain ⟨rfl, rfl⟩ := Prod.mk.inj (List.mem_singleton.mp hm)
        rcases hcases with ⟨e, _, rfl, _⟩ | ⟨update, r, hcommit, rfl, rfl⟩
        · exact absurd (.refl _) hloud
        · exact ⟨hrely _ _ hr, .single (.transact (.commitStack hcommit)), update, hcommit, rfl⟩
      have hrun₂ : System.Run s s₂ := hrun₁.trans (hrely _ _ hr₂)
      have hreach₂ : s₂.Reachable := h.run hrun₂
      cases Process.ends_bind hrefl hrest with
      | inl herror =>
          obtain ⟨e, _, hcommit⟩ := herror
          obtain ⟨_, _, _, _, hok⟩ := hwrites hcommit hm
          cases hok
      | inr hok =>
          obtain ⟨update, s₄, own₄, own₅, rfl, hcommit, hlast⟩ := hok
          obtain ⟨rfl, rfl, _⟩ := Process.ends_done hlast
          rw [List.append_nil] at hm
          obtain ⟨hrun₃, hrun₄, update', hcommitted, hok⟩ := hwrites hcommit hm
          obtain rfl := Except.ok.inj hok
          have hrun : System.Run s₂ a := (hrely _ _ hr₃).trans hrun₃
          refine ⟨hrun₂.trans hrun, hrun₄, entries, targetBase, merged, _, ?_, hmerged, ?_, hcommitted, rfl⟩
          · exact hholds.imp (fun _ _ hh => ⟨hh.1, hh.2.run (h.run hrun₁) ((hrely _ _ hr₂).trans hrun)⟩)
          · obtain ⟨hl, hsound⟩ := hrun.later hreach₂.sound
            obtain ⟨S, hs⟩ := hreach₂.sound.repository
            obtain ⟨S', hs'⟩ := hsound.repository
            exact hl.manifestAt hs.chain hs'.chain _ _ hbase

omit hrefl hrely in
theorem keys_of_holds {r : Repository Id} {results : List (RepoPath × Merged Id)} {entries : List (RepoPath × FileEntry Id)}
    (h : List.Forall₂ (fun result entry => entry.1 = result.1 ∧ Holds r result.2 entry.2) results entries) :
    entries.map Prod.fst = results.map Prod.fst := by
  induction h with
  | nil => rfl
  | cons he _ ih => rw [List.map_cons, List.map_cons, he.1, ih]

omit hrefl hrely in
theorem exists_holds {r : Repository Id} {results : List (RepoPath × Merged Id)} {entries : List (RepoPath × FileEntry Id)}
    (h : List.Forall₂ (fun result entry => entry.1 = result.1 ∧ Holds r result.2 entry.2) results entries)
    {p : RepoPath} {m : Merged Id} (hm : (p, m) ∈ results) : ∃ entry, (p, entry) ∈ entries ∧ Holds r m entry := by
  induction h with
  | nil => cases hm
  | @cons result entry results entries he _ ih =>
      cases List.mem_cons.mp hm with
      | inl hfirst =>
          subst hfirst
          exact ⟨entry.2, List.mem_cons.mpr (.inl (Prod.ext he.1.symm rfl)), he.2⟩
      | inr hrest =>
          obtain ⟨entry', hmem, hholds⟩ := ih hrest
          exact ⟨entry', List.mem_cons_of_mem _ hmem, hholds⟩

omit hrefl hrely in
/-- Entries that hold the merged results are the map of these, path by path. -/
theorem rel_of_holds {r : Repository Id} {results : SortedMap RepoPath (Merged Id)}
    {entries : List (RepoPath × FileEntry Id)}
    (h : List.Forall₂ (fun result entry => entry.1 = result.1 ∧ Holds r result.2 entry.2) results.toList entries)
    (p : RepoPath) : Option.Rel (Holds r) (results.get? p) ((SortedMap.ofList entries).get? p) := by
  have hkeys : entries.map Prod.fst = results.keys := keys_of_holds h
  cases hp : results.get? p with
  | none =>
      have hnone : (SortedMap.ofList entries).get? p = none := by
        rw [SortedMap.get?_eq_none]
        intro hmem
        have hmem := SortedMap.mem_keys_ofList hmem
        rw [hkeys] at hmem
        exact SortedMap.get?_eq_none.mp hp hmem
      rw [hnone]
      exact .none
  | some m =>
      obtain ⟨entry, hmem, hholds⟩ := exists_holds h (SortedMap.get?_eq_some.mp hp)
      rw [(SortedMap.get?_ofList (hkeys ▸ results.keys_nodup) p entry).mpr hmem]
      exact .some hholds

omit hrefl hrely in
theorem eq_of_rel {r : Repository Id} {kept entry : Option (FileEntry Id)}
    (h : Option.Rel (Holds r) (kept.map .retained) entry) : entry = kept := by
  cases kept with
  | none =>
      cases h with
      | none => rfl
  | some kept =>
      cases h with
      | some hh => exact congrArg some hh

omit hrefl hrely in
/-- The loader of the merge reads the stored contents. -/
theorem reads_of_later {r r' : Repository Id} (hl : Repository.Later r r') :
    Reads (loader r) (contentOf r') := by
  intro id s bytes s' hok
  obtain ⟨bytes', hread, hpure⟩ := except_bind_eq_ok.mp hok
  obtain ⟨rfl, _⟩ := Prod.mk.inj (Except.ok.inj hpure)
  have hblob : r.objects.readBlob id = .ok bytes' := by
    unfold readBlobBounded at hread
    split at hread
    · split at hread
      · cases hread
      · exact mapError_eq_ok.mp hread
    · exact mapError_eq_ok.mp hread
  unfold contentOf
  rw [hl.objects.readBlob id _ hblob]

omit hrefl hrely in
/-- What a clean merge and its commit make of the checkpoint. -/
theorem imported_of_value {r r' : Repository Id} {target head : LayerHead Id} {source : Id}
    {changes : SparseChanges Id} {before frozen after : LayerCheckpoint Id} {base ours theirs merged : Manifest Id}
    (h : Repository.Stacks r r' target source changes head before frozen after) (hid : frozen.id = source)
    (hfollows : ∀ p, Option.Rel (Holds r') (value (contentOf r') (sidesOf base ours theirs p)) (merged.entries.get? p)) :
    Imported r' before frozen after base ours theirs merged where
  kept := h.base
  sorted := by
    rw [h.sources]
    exact Repository.isChain_sortDedup _
  sources id := by
    rw [h.sources, Repository.mem_sortDedup, List.mem_append, List.mem_singleton, hid]
  unchanged p hp := by
    have hrel := hfollows p
    unfold value sidesOf at hrel
    rw [if_pos hp] at hrel
    exact eq_of_rel hrel
  changed p hne hp := by
    have hrel := hfollows p
    unfold value sidesOf at hrel
    rw [if_neg hne, if_pos hp] at hrel
    exact eq_of_rel hrel
  follows := hfollows

/-- A Stack without choices that moves its target imports exactly the source's changes. -/
theorem imported_of_ends (h : s.Reachable) {host : Host Id} {operation : OperationId} {target : LayerHead Id}
    {source : Id} {result : Except (StackError Id) (StackOutcome Id)}
    (hends : (stackLayer host operation target source).Ends rely s own result s') (hm : (a, b) ∈ own)
    (hmoved : b.repository.events target.layer ≠ a.repository.events target.layer) :
    ∃ head before frozen after base ours theirs merged, result = .ok (.updated (.applied (.active head))) ∧
      b.repository.layerStateIn target.layer = .ok (.active head) ∧
      b.repository.checkpointIn target.checkpoint = .ok before ∧
      b.repository.checkpointIn source = .ok frozen ∧
      b.repository.checkpointIn head.checkpoint = .ok after ∧
      b.repository.manifestAt frozen.base.version = .ok base ∧
      b.repository.checkpointManifest target.checkpoint = .ok ours ∧
      b.repository.checkpointManifest source = .ok theirs ∧
      b.repository.checkpointManifest head.checkpoint = .ok merged ∧
      Imported b.repository before frozen after base ours theirs merged := by
  have hloud : ¬ Quiet a b := fun hq => hmoved (hq.events _)
  unfold stackLayer stackLayerResolved at hends
  rw [show resolutionOf host SortedMap.empty = pure none from if_pos rfl] at hends
  obtain ⟨recorded, s₀, s₁, own₁, hr₀, _, hr₁, hm, hrest⟩ := of_read_bind hrefl hends hm hloud
  cases recorded with
  | some update =>
      obtain ⟨_, rfl, _⟩ := Process.ends_done hrest
      cases hm
  | none =>
      obtain ⟨before, t₁, s₂, own₂, hr₂, hbefore, hr₃, hm, hrest⟩ := of_read_bind hrefl hrest hm hloud
      obtain ⟨frozen, t₂, s₃, own₃, hr₄, hfrozen, hr₅, hm, hrest⟩ := of_read_bind hrefl hrest hm hloud
      obtain ⟨base, t₃, s₄, own₄, hr₆, hbase, hr₇, hm, hrest⟩ := of_read_bind hrefl hrest hm hloud
      obtain ⟨ours, t₄, s₅, own₅, hr₈, hours, hr₉, hm, hrest⟩ := of_read_bind hrefl hrest hm hloud
      obtain ⟨theirs, t₅, s₆, own₆, hr₁₀, htheirs, hr₁₁, hm, hrest⟩ := of_read_bind hrefl hrest hm hloud
      obtain ⟨outcome, t₆, s₇, own₇, hr₁₂, hmerge, hr₁₃, hm, hrest⟩ := of_read_bind hrefl hrest hm hloud
      have hto : ∀ {t u v}, rely t u → rely u v → System.Run t v := fun h h' => (hrely _ _ h).trans (hrely _ _ h')
      have hrun₁ : System.Run s t₁ := (hto hr₀ hr₁).trans (hrely _ _ hr₂)
      have hrun₂ := hrun₁.trans (hto hr₃ hr₄)
      have hrun₃ := hrun₂.trans (hto hr₅ hr₆)
      have hrun₄ := hrun₃.trans (hto hr₇ hr₈)
      have hrun₅ := hrun₄.trans (hto hr₉ hr₁₀)
      have hrun₆ := hrun₅.trans (hto hr₁₁ hr₁₂)
      obtain ⟨hclean, hcommit⟩ : outcome.conflicts = [] ∧
          (commitMerged host operation target source none before outcome).Ends rely s₇ own₇ result s' := by
        unfold finish at hrest
        split at hrest
        · obtain ⟨_, rfl, _⟩ := Process.ends_done hrest
          cases hm
        · split at hrest
          · obtain ⟨_, rfl, _⟩ := Process.ends_done hrest
            cases hm
          · rename_i hclean
            exact ⟨not_not.mp hclean, hrest⟩
      obtain ⟨hrun, hab, entries, targetBase, merged, update, hentries, hmerged, htargetBase, hcommitted, rfl⟩ :=
        of_commitMerged hrefl hrely (h.run (hrun₆.trans (hrely _ _ hr₁₃))) hcommit hm hloud
      -- every read is of a state before `b`, and stays
      have hrest₆ : System.Run t₆ b := ((hrely _ _ hr₁₃).trans hrun).trans hab
      have hrest₅ := (hto hr₁₁ hr₁₂).trans hrest₆
      have hrest₄ := (hto hr₉ hr₁₀).trans hrest₅
      have hrest₃ := (hto hr₇ hr₈).trans hrest₄
      have hrest₂ := (hto hr₅ hr₆).trans hrest₃
      have hrest₁ := (hto hr₃ hr₄).trans hrest₂
      have ha : a.Reachable := h.run ((hrun₆.trans (hrely _ _ hr₁₃)).trans hrun)
      have hb : b.Reachable := ha.run hab
      obtain ⟨S, hs⟩ := ha.sound.repository
      obtain ⟨S', hs'⟩ := hb.sound.repository
      obtain ⟨hl, _⟩ := hab.later ha.sound
      obtain ⟨head, before', frozen', after, rfl, hstacks⟩ := Repository.stacks_of_commitStack hs hcommitted hmoved
      have hcheckpoint : ∀ {t id c}, System.Run s t → System.Run t b → t.repository.readDeep id = .ok c →
          b.repository.checkpointIn id = .ok c := by
        intro t id c hst htb hread
        obtain ⟨S₁, hs₁⟩ := (h.run hst).sound.repository
        exact (htb.later (h.run hst).sound).1.checkpointIn hs₁.chain hs'.chain _ _ (Repository.checkpointIn_of_readDeep hread)
      have hfiles : ∀ {t id m}, System.Run s t → System.Run t b → t.repository.checkpointManifest id = .ok m →
          b.repository.checkpointManifest id = .ok m := by
        intro t id m hst htb hread
        obtain ⟨S₁, hs₁⟩ := (h.run hst).sound.repository
        exact (htb.later (h.run hst).sound).1.checkpointManifest hs₁ hs' hread
      have hbefore := hcheckpoint hrun₁ hrest₁ (storage_eq_ok.mp hbefore)
      have hfrozen := hcheckpoint hrun₂ hrest₂ (storage_eq_ok.mp hfrozen)
      obtain rfl := Except.ok.inj (hbefore.symm.trans (hl.checkpointIn hs.chain hs'.chain _ _ hstacks.readsTarget))
      obtain rfl := Except.ok.inj (hfrozen.symm.trans (hl.checkpointIn hs.chain hs'.chain _ _ hstacks.readsSource))
      have htarget := ((Repository.checkpointIn_eq_ok hs'.chain).mp hbefore).named
      have hsource := ((Repository.checkpointIn_eq_ok hs'.chain).mp hfrozen).named
      have hours := hfiles hrun₄ hrest₄ (storage_eq_ok.mp hours)
      have htheirs := hfiles hrun₅ hrest₅ (storage_eq_ok.mp htheirs)
      rw [htarget] at hours
      rw [hsource] at htheirs
      have hbase : b.repository.manifestAt frozen.base.version = .ok base := by
        obtain ⟨S₃, hs₃⟩ := (h.run hrun₃).sound.repository
        exact (System.Run.later hrest₃ (h.run hrun₃).sound).1.manifestAt hs₃.chain hs'.chain _ _ (storage_eq_ok.mp hbase)
      refine ⟨head, before, frozen, after, base, ours, theirs, merged, rfl, hstacks.active, hbefore, hfrozen,
        hstacks.readsHead, hbase, hours, htheirs, hstacks.checkpointManifest hs hs' hl htargetBase, ?_⟩
      refine imported_of_value hstacks hsource (fun p => ?_)
      obtain ⟨⟨outcome', u⟩, hresolved, hpure⟩ := except_bind_eq_ok.mp (mapError_eq_ok.mp hmerge)
      obtain rfl := Except.ok.inj hpure
      obtain ⟨hl₆, _⟩ := hrest₆.later (h.run hrun₆).sound
      rw [← mergeResolved_clean (reads_of_later hl₆) hresolved hclean p, Repository.entries_of_ofMap hmerged]
      exact rel_of_holds (hentries.imp (fun _ _ hh => ⟨hh.1, hh.2.run ha hab⟩)) p

end imports

/-! ### Refusals -/

section refusals
variable {rely : System Id → System Id → Prop} {α β : Type}

/-- All errors are of the repository. -/
def FailsInStorage (rely : System Id → System Id → Prop) (p : StackM Id α) : Prop :=
  ∀ s own e s', p.Ends rely s own (.error e) s' → ∃ error, e = .storage error

omit [LinearOrder Id] [Encoding Id] in
theorem failsInStorage_pure (a : α) : FailsInStorage rely (pure a : StackM Id α) := by
  intro s own e s' h
  obtain ⟨he, _⟩ := Process.ends_done h
  cases he

omit [LinearOrder Id] [Encoding Id] in
theorem failsInStorage_reading (f : Repository Id → Except (Error Id) α) :
    FailsInStorage rely (reading f : StackM Id α) := by
  intro s own e s' h
  obtain ⟨t, _, _, _, he⟩ := Process.ends_read h
  unfold storage at he
  cases hf : f t.repository with
  | error error =>
      rw [hf] at he
      exact ⟨_, Except.error.inj he⟩
  | ok a =>
      rw [hf] at he
      cases he

theorem failsInStorage_putBlob (bytes : Str) : FailsInStorage rely (putBlob bytes : StackM Id Id) := by
  intro s own e s' h
  obtain ⟨_, _, _, _, _, ⟨error, _, _, he⟩ | ⟨_, _, _, _, he⟩⟩ := ends_writing h
  · exact ⟨_, Except.error.inj he⟩
  · cases he

variable (hrefl : ∀ s, rely s s)
include hrefl

omit [LinearOrder Id] [Encoding Id] in
theorem FailsInStorage.bind {p : StackM Id α} {f : α → StackM Id β} (hp : FailsInStorage rely p)
    (hf : ∀ a, FailsInStorage rely (f a)) : FailsInStorage rely (p >>= f) := by
  intro s own e s' h
  cases Process.ends_bind hrefl h with
  | inl herror =>
      obtain ⟨e', he, hends⟩ := herror
      rw [Except.error.inj he]
      exact hp _ _ _ _ hends
  | inr hok =>
      obtain ⟨a, _, _, _, _, _, hrest⟩ := hok
      exact hf a _ _ _ _ hrest

theorem failsInStorage_resolutionOf (host : Host Id) (choices : SortedMap RepoPath Choice) :
    FailsInStorage rely (resolutionOf host choices) := by
  have hstore : ∀ l : List (RepoPath × Choice), FailsInStorage rely (storeChoices l : StackM Id _) := by
    intro l
    induction l with
    | nil => exact failsInStorage_pure _
    | cons c l ih =>
        refine FailsInStorage.bind hrefl ?_ (fun resolution => ih.bind hrefl (fun rest => failsInStorage_pure _))
        cases c.2 with
        | ours => exact failsInStorage_pure _
        | theirs => exact failsInStorage_pure _
        | content bytes executable =>
            exact (failsInStorage_putBlob bytes).bind hrefl (fun content => failsInStorage_pure _)
  unfold resolutionOf
  split
  · exact failsInStorage_pure _
  · refine FailsInStorage.bind hrefl ?_ (fun id => failsInStorage_pure _)
    exact (hstore _).bind hrefl (fun resolutions => failsInStorage_putBlob _)

end refusals

/-- A Stack alone that answers with conflicts or a refusal of the merge found its operation unused. -/
theorem fresh_of_alone {s s' : System Id} {host : Host Id} {operation : OperationId} {target : LayerHead Id} {source : Id}
    {choices : SortedMap RepoPath Choice} {result : Except (StackError Id) (StackOutcome Id)}
    (h : (stackLayerResolved host operation target source choices).alone s = (result, s'))
    (hresult : (∃ conflicts, result = .ok (.conflicts conflicts)) ∨ ∃ e, result = .error (.merge e)) :
    s.repository.layerAttempts.get? operation = none := by
  obtain ⟨own, hends⟩ := Process.ends_alone (stackLayerResolved host operation target source choices) s
  rw [h] at hends
  have hstorage : ∀ error, result ≠ .error (.storage error) := by
    intro error he
    cases hresult with
    | inl hc =>
        obtain ⟨_, hc⟩ := hc
        rw [he] at hc
        cases hc
    | inr hc =>
        obtain ⟨_, hc⟩ := hc
        rw [he] at hc
        cases hc
  cases Process.ends_bind (fun _ => rfl) hends with
  | inl herror =>
      obtain ⟨e, rfl, hfirst⟩ := herror
      obtain ⟨error, rfl⟩ := failsInStorage_resolutionOf (fun _ => rfl) host choices _ _ _ _ hfirst
      exact absurd rfl (hstorage error)
  | inr hok =>
      obtain ⟨resolution, s₁, own₁, own₂, _, hfirst, hrest⟩ := hok
      have hkept : s₁.repository.layerAttempts = s.repository.layerAttempts := by
        refine hfirst.within (R := fun s s' => s'.repository.layerAttempts = s.repository.layerAttempts)
          ?_ (fun _ _ h => h ▸ rfl) (fun step hm => ?_)
        · intro s₁ s₂ s₃ h₁ h₂
          exact h₂.trans h₁
        · obtain ⟨objects, he⟩ := (calm_resolutionOf (fun _ => rfl) host choices _ _ _ _ hfirst step hm).objects
          rw [he]
      cases Process.ends_bind (fun _ => rfl) hrest with
      | inl herror =>
          obtain ⟨e, rfl, hread⟩ := herror
          obtain ⟨error, rfl⟩ := failsInStorage_reading _ _ _ _ _ hread
          exact absurd rfl (hstorage error)
      | inr hok =>
          obtain ⟨recorded, _, _, _, _, hread, hlast⟩ := hok
          obtain ⟨t, rfl, _, _, hop⟩ := Process.ends_read hread
          cases recorded with
          | some update =>
              obtain ⟨rfl, _⟩ := Process.ends_done hlast
              rcases hresult with ⟨_, hc⟩ | ⟨_, hc⟩
              · cases hc
              · cases hc
          | none =>
              have hop : s₁.repository.stackOperation operation target source resolution = .ok none :=
                storage_eq_ok.mp hop.symm
              rw [← hkept]
              unfold Repository.stackOperation at hop
              cases hget : s₁.repository.layerAttempts.get? operation with
              | none => rfl
              | some prior =>
                  rw [hget] at hop
                  obtain ⟨_, _, h₁⟩ := except_bind_eq_ok.mp hop
                  obtain ⟨_, _, h₂⟩ := except_bind_eq_ok.mp h₁
                  obtain ⟨_, _, h₃⟩ := except_bind_eq_ok.mp h₂
                  obtain ⟨_, _, h₄⟩ := except_bind_eq_ok.mp h₃
                  obtain ⟨_, _, h₅⟩ := except_bind_eq_ok.mp h₄
                  obtain ⟨_, _, h₆⟩ := except_bind_eq_ok.mp h₅
                  cases h₆

end Stack

/-! ### Runs -/

namespace System
open Stack

/-- Whatever others do in between, a Stack without choices that moves its target's Layer imports exactly the
source's changes; and a Stack that does not answer with an update only stores objects, so that alone it
leaves every Layer and every operation as it was. -/
theorem Reachable.stack_imports {s : System Id} (h : s.Reachable) (host : Host Id) (operation : OperationId)
    (target : LayerHead Id) (source : Id) (rely : System Id → System Id → Prop) (hrefl : ∀ s, rely s s)
    (hrely : ∀ s s', rely s s' → Run s s') :
    (∀ own result s', (stackLayer host operation target source).Ends rely s own result s' →
      ∀ a b, (a, b) ∈ own → b.repository.events target.layer ≠ a.repository.events target.layer →
      ∃ head before frozen after base ours theirs merged, result = .ok (.updated (.applied (.active head))) ∧
        b.repository.layerStateIn target.layer = .ok (.active head) ∧
        b.repository.checkpointIn target.checkpoint = .ok before ∧
        b.repository.checkpointIn source = .ok frozen ∧
        b.repository.checkpointIn head.checkpoint = .ok after ∧
        b.repository.manifestAt frozen.base.version = .ok base ∧
        b.repository.checkpointManifest target.checkpoint = .ok ours ∧
        b.repository.checkpointManifest source = .ok theirs ∧
        b.repository.checkpointManifest head.checkpoint = .ok merged ∧
        Imported b.repository before frozen after base ours theirs merged) ∧
      (∀ choices own result s', (stackLayerResolved host operation target source choices).Ends rely s own result s' →
        (∀ update, result ≠ .ok (.updated update)) → ∀ step ∈ own, Quiet step.1 step.2) ∧
      ∀ choices result s', (stackLayerResolved host operation target source choices).alone s = (result, s') →
        (∀ update, result ≠ .ok (.updated update)) →
        (∃ objects, s' = ⟨{ s.repository with objects := objects }, s.plans⟩) ∧
          (((∃ conflicts, result = .ok (.conflicts conflicts)) ∨ ∃ e, result = .error (.merge e)) →
            s.repository.layerAttempts.get? operation = none) := by
  refine ⟨fun own result s' hends a b hm hmoved => imported_of_ends hrefl hrely h hends hm hmoved,
    fun choices own result s' hends hne => calm_stackLayerResolved hrefl host operation target source choices
      s own result s' hends hne, fun choices result s' halone hne => ⟨?_, fresh_of_alone halone⟩⟩
  obtain ⟨own, hends⟩ := Process.ends_alone (stackLayerResolved host operation target source choices) s
  rw [halone] at hends
  have hquiet := calm_stackLayerResolved (fun _ => rfl) host operation target source choices s own result s' hends hne
  refine hends.within (R := fun s s' => ∃ objects, s' = ⟨{ s.repository with objects := objects }, s.plans⟩)
    ?_ ?_ (fun step hm => (hquiet step hm).objects)
  · intro s₁ s₂ s₃ h₁ h₂
    obtain ⟨_, rfl⟩ := h₁
    obtain ⟨objects, rfl⟩ := h₂
    exact ⟨objects, rfl⟩
  · intro s₁ s₂ h
    subst h
    exact ⟨s₁.repository.objects, rfl⟩

/-- A host without aliases. -/
def plainHost : Host ℕ := ⟨fun _ => .ok [], fun _ => [], fun _ => "", none⟩

omit [LinearOrder Id] [Encoding Id] in
theorem alone_reading {α : Type} {f : Repository Id → Except (Error Id) α} {s : System Id} {a : α}
    (h : f s.repository = .ok a) : (reading f : StackM Id α).alone s = (.ok a, s) := by
  show (storage (f s.repository), s) = _
  rw [h]
  rfl

omit [LinearOrder Id] [Encoding Id] in
theorem alone_writing {α : Type} {f : Repository Id → Except (Error Id) (α × Repository Id)} {s : System Id} {a : α}
    {r : Repository Id} (h : f s.repository = .ok (a, r)) :
    (writing f : StackM Id α).alone s = (.ok a, ⟨r, s.plans⟩) := by
  unfold writing
  rw [Process.alone_transact]
  unfold Process.written
  beta_reduce
  rw [h]
  rfl

/-- A new Layer is stacked with its own first checkpoint. -/
theorem exists_stacked : ∃ (s s' : System ℕ) (target head : LayerHead ℕ), s.Reachable ∧
    (stackLayer plainHost ⟨[49]⟩ target target.checkpoint).alone s =
      (.ok (.updated (.applied (.active head))), s') ∧
    s'.repository.events target.layer ≠ s.repository.events target.layer := by
  obtain ⟨target, r, hcreated, hreach⟩ := exists_created (0 : ℕ) ⟨[97]⟩
  obtain ⟨S, hs⟩ := hreach.sound.repository
  obtain ⟨before, hbefore, hbase, hchanges⟩ := hcreated.unchanged
  have hfresh : r.layerAttempts.get? ⟨[49]⟩ = none := by
    rw [hcreated.layerAttempts]
    rfl
  have hactive : r.layerStateIn target.layer = .ok (.active target) := by
    rw [hcreated.named]
    exact hcreated.active
  have hnormal : r.normalizeIn before.base.version SparseChanges.empty = .ok SparseChanges.empty := by
    rw [hbase]
    exact Repository.normalizeIn_empty hs.chain hs.chain.first
  have hroom : target.revision + 1 < REVISIONS := by
    rw [hcreated.revision]
    decide
  obtain ⟨head, r', hcommit, hreplaced⟩ :=
    Repository.exists_commitStack hs hfresh hactive hbefore hnormal hbefore hroom
  have hid : before.id = target.checkpoint := ((Repository.checkpointIn_eq_ok hs.chain).mp hbefore).named
  have hmanifest : r.manifestAt before.base.version = .ok Manifest.empty := by
    rw [hbase, hs.chain.manifestAt_eq hs.chain.first, hs.chain.genesis]
  have hfiles : r.checkpointManifest before.id = .ok Manifest.empty := by
    obtain ⟨m, hm, hflat⟩ := hs.exists_checkpointManifest ((Repository.checkpointIn_eq_ok hs.chain).mp hbefore)
    rw [hbase, hchanges, hs.chain.genesis] at hflat
    rw [hid, hm]
    exact congrArg Except.ok (Manifest.flat_injective hflat)
  have hdeep : r.readDeep target.checkpoint = .ok before := by
    rw [(hreach.allDeep.deep hbefore).readDeep_eq]
    exact hbefore
  have hreplay : r.stackOperation ⟨[49]⟩ target target.checkpoint none = .ok none := by
    unfold Repository.stackOperation
    rw [hfresh]
    rfl
  have hmerge : mergeIn plainHost r Manifest.empty Manifest.empty Manifest.empty SortedMap.empty =
      .ok ⟨SortedMap.empty, [], [], ⟨0, 0⟩⟩ := rfl
  have hdelta : Refresh.changesFrom (Manifest.empty : Manifest ℕ) Manifest.empty = SparseChanges.empty := rfl
  refine ⟨⟨r, []⟩, ⟨r', []⟩, target, head, hreach, ?_, ?_⟩
  · unfold stackLayer stackLayerResolved
    rw [show resolutionOf plainHost SortedMap.empty = pure none from if_pos rfl]
    refine Eq.trans (Process.alone_bind_of_ok (Process.alone_pure none _)) ?_
    refine Eq.trans (Process.alone_bind_of_ok (alone_reading (by exact hreplay))) ?_
    refine Eq.trans (Process.alone_bind_of_ok (alone_reading (by exact hdeep))) ?_
    refine Eq.trans (Process.alone_bind_of_ok (alone_reading (by exact hdeep))) ?_
    refine Eq.trans (Process.alone_bind_of_ok (alone_reading (by exact hmanifest))) ?_
    refine Eq.trans (Process.alone_bind_of_ok (alone_reading (by exact hfiles))) ?_
    refine Eq.trans (Process.alone_bind_of_ok (alone_reading (by exact hfiles))) ?_
    have hstep : (merging plainHost Manifest.empty Manifest.empty Manifest.empty SortedMap.empty).alone ⟨r, []⟩ =
        (.ok ⟨SortedMap.empty, [], [], ⟨0, 0⟩⟩, ⟨r, []⟩) := by
      show ((mergeIn plainHost r Manifest.empty Manifest.empty Manifest.empty SortedMap.empty).mapError _, _) = _
      rw [hmerge]
      rfl
    have hmap : Manifest.ofMap (SortedMap.ofList []) = (.ok Manifest.empty : Except (Error ℕ) (Manifest ℕ)) := rfl
    refine (Process.alone_bind_of_ok hstep).trans ?_
    refine Eq.trans (Process.alone_bind_of_ok (Process.alone_pure [] _)) ?_
    rw [hmap]
    refine Eq.trans (Process.alone_bind_of_ok (alone_reading (by exact hmanifest))) ?_
    rw [hdelta]
    exact Process.alone_bind_of_ok (alone_writing hcommit)
  · obtain ⟨⟨e, he, _⟩, _⟩ := hs.live_of_active hactive
    obtain ⟨_, hmax⟩ := Repository.latestIn_eq_ok.mp he
    have hperform : r.perform ⟨[49]⟩ (.stack target target.checkpoint SparseChanges.empty none none) =
        .ok (.applied (.active head), r') := hcommit
    rcases Repository.moved_of_perform hs hperform with ⟨_, hmoved⟩ | ⟨hnot, _⟩
    · obtain ⟨⟨e', he', _⟩, _⟩ := hmoved
      obtain ⟨hget, _⟩ := Repository.latestIn_eq_ok.mp he'
      intro hsame
      have hle : target.revision + 1 ≤ target.revision := hmax _ e' (hsame ▸ hget)
      omega
    · exact absurd hactive hnot

/-- The Stack of a new Layer with its own first checkpoint moves the Layer, and what it commits is imported. -/
theorem stack_imports_own_checkpoint : ∃ (s b s' : System ℕ) (target head : LayerHead ℕ), s.Reachable ∧
    (stackLayer plainHost ⟨[49]⟩ target target.checkpoint).alone s =
      (.ok (.updated (.applied (.active head))), s') ∧
    ∃ before frozen after base ours theirs merged, b.repository.layerStateIn target.layer = .ok (.active head) ∧
      b.repository.checkpointManifest head.checkpoint = .ok merged ∧
      Imported b.repository before frozen after base ours theirs merged := by
  obtain ⟨s, s', target, head, hreach, halone, hmoved⟩ := exists_stacked
  obtain ⟨own, hends⟩ := Process.ends_alone (stackLayer plainHost ⟨[49]⟩ target target.checkpoint) s
  rw [halone] at hends
  obtain ⟨a, b, hm, hstep⟩ : ∃ a b, (a, b) ∈ own ∧
      b.repository.events target.layer ≠ a.repository.events target.layer := by
    by_contra hnone
    refine hmoved (hends.within
      (R := fun s s' => s'.repository.events target.layer = s.repository.events target.layer) ?_ ?_ ?_)
    · intro s₁ s₂ s₃ h₁ h₂
      exact h₂.trans h₁
    · intro s₁ s₂ h
      rw [h]
    · intro step hm
      by_contra hne
      exact hnone ⟨step.1, step.2, hm, hne⟩
  obtain ⟨head', before, frozen, after, base, ours, theirs, merged, hresult, hactive, _, _, _, _, _, _, hmerged,
      himported⟩ :=
    (hreach.stack_imports plainHost ⟨[49]⟩ target target.checkpoint Eq (fun _ => rfl) (fun _ _ h => h ▸ .refl)).1
      own _ s' hends a b hm hstep
  obtain rfl : head = head' := by
    cases hresult
    rfl
  exact ⟨s, b, s', target, head, hreach, halone, before, frozen, after, base, ours, theirs, merged, hactive, hmerged,
    himported⟩

end System

end Javelin
