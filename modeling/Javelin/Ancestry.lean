import Javelin.Tracking

/-! # Stack ancestry

A checkpoint names the checkpoints stacked into it, so reading one with its whole ancestry could
run in a circle or meet one that is not stored.  It never does: every stored checkpoint of a
reachable repository is `Deep`, frozen with sources that are (`Reachable.allDeep`), and a deep
checkpoint reads (`Deep.readDeep`). -/

namespace Javelin

open KeyedList

variable {Id : Type} [LinearOrder Id] [Encoding Id]

omit [LinearOrder Id] [Encoding Id] in
theorem forM_eq_ok {α : Type} {f : α → Except (Error Id) Unit} {l : List α} :
    l.forM f = .ok () ↔ ∀ a ∈ l, f a = .ok () := by
  induction l with
  | nil => exact ⟨fun _ => by simp, fun _ => rfl⟩
  | cons a l ih =>
      have hcons : (a :: l).forM f = (f a >>= fun _ => l.forM f) := rfl
      rw [hcons, except_bind_eq_ok, List.forall_mem_cons, ← ih]
      constructor
      · rintro ⟨_, ha, hl⟩
        exact ⟨ha, hl⟩
      · rintro ⟨ha, hl⟩
        exact ⟨(), ha, hl⟩

namespace Repository
variable {r r' : Repository Id} {S S' : VersionNumber → Manifest Id}

/-! ### Reading deep -/

/-- A checkpoint that reads, and so do all below it. -/
inductive Deep (r : Repository Id) : Id → Prop
  | node {id : Id} {checkpoint : LayerCheckpoint Id} : r.checkpointIn id = .ok checkpoint →
      (∀ source ∈ checkpoint.sources, Deep r source) → Deep r id

/-- `source` is stacked into the checkpoint `id`. -/
def Stacked (r : Repository Id) (source id : Id) : Prop :=
  ∃ checkpoint, r.checkpointIn id = .ok checkpoint ∧ source ∈ checkpoint.sources

theorem Deep.acc {id : Id} (h : Deep r id) : Acc (Stacked r) id := by
  induction h with
  | @node id checkpoint hread _ ih =>
      refine ⟨id, ?_⟩
      rintro source ⟨checkpoint', hread', hm⟩
      obtain rfl := Except.ok.inj (hread.symm.trans hread')
      exact ih source hm

theorem Deep.not_below {id : Id} (h : Deep r id) : ¬ Relation.TransGen (Stacked r) id id := by
  have hacc := h.acc.transGen
  induction hacc with
  | intro id _ ih => exact fun hloop => ih id hloop h hloop

theorem lookup_of_checkpointIn {id : Id} {checkpoint : LayerCheckpoint Id}
    (h : r.checkpointIn id = .ok checkpoint) : id ∈ r.objects.map Prod.fst := by
  unfold checkpointIn checkpointNode at h
  obtain ⟨c, hread, _⟩ := except_bind_eq_ok.mp h
  obtain ⟨hl, _⟩ := Objects.read_eq_ok.mp (Objects.readCheckpoint_eq_ok.mp hread)
  obtain ⟨l₁, l₂, ho, _⟩ := List.lookup_eq_some_iff.mp hl
  rw [ho]
  simp

/-- No path of ancestors is longer than the table, so the depth suffices. -/
theorem Deep.readBelow {id : Id} (h : Deep r id) {depth : ℕ} {visiting : List Id}
    (hnodup : visiting.Nodup) (hstored : visiting ⊆ r.objects.map Prod.fst)
    (habove : ∀ v ∈ visiting, Relation.TransGen (Stacked r) id v)
    (hdepth : r.objects.length + 1 ≤ depth + visiting.length) :
    ∃ checkpoint, r.checkpointIn id = .ok checkpoint ∧ r.readBelow depth visiting id = .ok checkpoint := by
  induction h generalizing depth visiting with
  | @node id checkpoint hread hsources ih =>
      refine ⟨checkpoint, hread, ?_⟩
      have hid : id ∉ visiting := fun hm =>
        (Deep.node hread hsources).not_below (habove id hm)
      have hlen : visiting.length ≤ r.objects.length := by
        have hle := (hnodup.subperm hstored).length_le
        rwa [List.length_map] at hle
      obtain ⟨depth, rfl⟩ : ∃ d, depth = d + 1 := ⟨depth - 1, by omega⟩
      have hbelow : ∀ source ∈ checkpoint.sources, (do
          let _ ← r.readBelow depth (id :: visiting) source
          return () : Except (Error Id) Unit) = .ok () := by
        intro source hm
        have hs : Stacked r source id := ⟨checkpoint, hread, hm⟩
        have habove' : ∀ v ∈ id :: visiting, Relation.TransGen (Stacked r) source v := by
          intro v hv
          rcases List.mem_cons.mp hv with rfl | hv
          · exact .single hs
          · exact .head hs (habove v hv)
        have hrest : r.objects.length + 1 ≤ depth + (id :: visiting).length := by
          rw [List.length_cons]
          omega
        obtain ⟨_, _, hok⟩ := ih source hm (List.nodup_cons.mpr ⟨hid, hnodup⟩)
          (List.cons_subset.mpr ⟨lookup_of_checkpointIn hread, hstored⟩) habove' hrest
        rw [except_bind_of_ok hok]
        rfl
      have hrefuse : refuse (id ∈ visiting) (corrupt "cyclic Stack ancestry" : Error Id) = .ok () :=
        refuse_eq_ok.mpr hid
      unfold Repository.readBelow
      rw [except_bind_of_ok hrefuse, except_bind_of_ok (show r.checkpointNode id = _ from hread),
        except_bind_of_ok (forM_eq_ok.mpr hbelow)]
      rfl

theorem Deep.readDeep {id : Id} (h : Deep r id) :
    ∃ checkpoint, r.checkpointIn id = .ok checkpoint ∧ r.readDeep id = .ok checkpoint :=
  h.readBelow List.nodup_nil (List.nil_subset _) (by simp) (by simp)

theorem Deep.readDeep_eq {id : Id} (h : Deep r id) : r.readDeep id = r.checkpointIn id := by
  obtain ⟨checkpoint, hread, hdeep⟩ := h.readDeep
  rw [hread, hdeep]

/-! ### Every stored checkpoint is deep -/

theorem Deep.later {id : Id} (hd : Deep r id) (h : Later r r') (hc : Chain r S) (hc' : Chain r' S') :
    Deep r' id := by
  induction hd with
  | @node id checkpoint hread _ ih => exact .node (h.checkpointIn hc hc' id _ hread) ih

/-- Every stored checkpoint is deep. -/
def AllDeep (r : Repository Id) : Prop := ∀ id c, r.objects.readCheckpoint id = .ok c → Deep r id

theorem readCheckpoint_of_checkpointIn {id : Id} {checkpoint : LayerCheckpoint Id}
    (h : r.checkpointIn id = .ok checkpoint) : r.objects.readCheckpoint id =
      .ok ⟨checkpoint.base, checkpoint.changes, checkpoint.sources, checkpoint.provenance⟩ := by
  unfold checkpointIn checkpointNode at h
  obtain ⟨c, hread, h₁⟩ := except_bind_eq_ok.mp h
  obtain ⟨_, _, h₂⟩ := except_bind_eq_ok.mp h₁
  obtain ⟨_, _, h₃⟩ := except_bind_eq_ok.mp h₂
  obtain ⟨_, _, h₄⟩ := except_bind_eq_ok.mp h₃
  obtain ⟨_, _, h₅⟩ := except_bind_eq_ok.mp h₄
  obtain ⟨_, _, hpure⟩ := except_bind_eq_ok.mp h₅
  obtain rfl := Except.ok.inj hpure
  exact hread

theorem AllDeep.deep (h : AllDeep r) {id : Id} {checkpoint : LayerCheckpoint Id}
    (hread : r.checkpointIn id = .ok checkpoint) : Deep r id :=
  h id _ (readCheckpoint_of_checkpointIn hread)

theorem AllDeep.sources (h : AllDeep r) {id : Id} {checkpoint : LayerCheckpoint Id}
    (hread : r.checkpointIn id = .ok checkpoint) : ∀ source ∈ checkpoint.sources, Deep r source := by
  cases h.deep hread with
  | node hread' hsources =>
      obtain rfl := Except.ok.inj (hread.symm.trans hread')
      exact hsources

theorem AllDeep.keep (hr : AllDeep r) (h : Later r r') (hc : Chain r S) (hc' : Chain r' S')
    (hkept : r.objects.NoCheckpoints r'.objects) : AllDeep r' :=
  fun id c hread => (hr id c (hkept id c hread)).later h hc hc'

/-- The only checkpoint that was added is a candidate whose sources are deep. -/
structure AddsOnly (r r' : Repository Id) (candidate : Id) (sources : List Id) : Prop where
  checkpoints : ∀ id c, r'.objects.readCheckpoint id = .ok c →
    r.objects.readCheckpoint id = .ok c ∨ id = candidate
  reads : ∃ checkpoint, r'.checkpointIn candidate = .ok checkpoint ∧ checkpoint.sources = sources
  deep : ∀ source ∈ sources, Deep r source

theorem AllDeep.add (hr : AllDeep r) (h : Later r r') (hc : Chain r S) (hc' : Chain r' S')
    {candidate : Id} {sources : List Id} (hadds : AddsOnly r r' candidate sources) : AllDeep r' := by
  intro id c hread
  rcases hadds.checkpoints id c hread with hold | rfl
  · exact (hr id c hold).later h hc hc'
  · obtain ⟨checkpoint, hreads, rfl⟩ := hadds.reads
    exact .node hreads (fun source hm => (hadds.deep source hm).later h hc hc')

/-! ### Entry points -/

/-- The candidate of an update reads back after it. -/
theorem candidate_of_updateIn {op : OperationId} {u : Update Id} {outcome : LayerUpdate Id}
    (hok : r.updateIn op u = .ok (outcome, r')) :
    r.objects.Extends r'.objects ∧ r.objects.NoCheckpoints r'.objects ∧
      ∃ checkpoint, r'.checkpointIn u.candidate.id = .ok checkpoint := by
  rcases of_updateIn hok with ⟨rfl, prior, hprior, hsame, _, hout⟩ | ⟨_, _, _, _, hrec⟩
  · obtain ⟨a, _, _, checkpoint, _, hv⟩ := of_layerOutcome hout
    obtain rfl := Option.some.inj (hprior.symm.trans hv.attempt)
    have hid : prior.checkpoint = u.candidate.id := by
      by_contra hne
      exact hsame (Or.inr (Or.inr (Or.inl hne)))
    exact ⟨.refl _, fun _ _ h => h, checkpoint, hid ▸ hv.checkpoint⟩
  · obtain ⟨a, _, _, checkpoint, _, hv⟩ := of_layerOutcome hrec.outcome
    have hattempt := hv.attempt
    rw [hrec.layerAttempts, SortedMap.get?_insert, if_pos rfl] at hattempt
    obtain rfl := Option.some.inj hattempt
    exact ⟨hrec.only.objects, hrec.checkpoints, checkpoint, hv.checkpoint⟩

/-- A capture or Stack adds a candidate above deep sources. -/
theorem update_allDeep (hr : AllDeep r) (hs : Sound r S) {op : OperationId} {u : Update Id}
    {outcome : LayerUpdate Id} {base : LayerBase Id} {sources : List Id} {objects : Objects Id}
    (hp : PreparedAs r base sources u.candidate objects)
    (hdeep : ∀ source ∈ sources, Deep r source) (hstep : Later r r' ∧ Sound r' S)
    (hok : ({ r with objects := objects }).updateIn op u = .ok (outcome, r')) : AllDeep r' := by
  obtain ⟨hext, hkept, checkpoint, hread⟩ := candidate_of_updateIn hok
  apply hr.add hstep.1 hs.chain hstep.2.chain
  refine ⟨fun id c h => hp.adds id c (hkept id c h), ⟨checkpoint, hread, ?_⟩, hdeep⟩
  have hstored := hext.readCheckpoint _ _ hp.stored
  have hsame := Except.ok.inj ((readCheckpoint_of_checkpointIn hread).symm.trans hstored)
  exact congrArg EncodedCheckpoint.sources hsame

theorem createIn_allDeep (hr : AllDeep r) (hs : Sound r S) {layer : LayerId}
    {candidate : LayerCandidate Id} {head : LayerHead Id} (hstep : Later r r' ∧ Sound r' S)
    (hok : r.createIn layer candidate = .ok (head, r')) : AllDeep r' := by
  obtain ⟨_, ⟨rfl, _⟩ | ⟨_, rfl⟩⟩ := of_createIn hok
  · exact hr
  · exact hr.keep hstep.1 hs.chain hstep.2.chain (fun _ _ h => h)

theorem createLayer_allDeep (hr : AllDeep r) (hs : Sound r S) {layer : LayerId} {base : LayerBase Id}
    {head : LayerHead Id} (hok : r.createLayer layer base = .ok (head, r')) : AllDeep r' := by
  unfold createLayer at hok
  obtain ⟨⟨candidate, r₀⟩, hprep, h₁⟩ := except_bind_eq_ok.mp hok
  obtain ⟨objects, rfl, hp, hf⟩ := hs.prepareInitial hprep
  obtain ⟨hl₀, hs₀⟩ := hp.sound hs
  have hr₀ : AllDeep { r with objects := objects } := by
    apply hr.add hl₀ hs.chain hs₀.chain
    exact ⟨hp.adds, ⟨_, (checkpointIn_eq_ok hs₀.chain).mpr hf, rfl⟩, by simp⟩
  exact createIn_allDeep hr₀ hs₀ (createIn_sound hs₀ hf h₁) h₁

theorem cloneLayer_allDeep (hr : AllDeep r) (hs : Sound r S) {layer : LayerId} {checkpoint : Id}
    {head : LayerHead Id} (hok : r.cloneLayer layer checkpoint = .ok (head, r')) : AllDeep r' := by
  have hstep := cloneLayer_sound hs hok
  unfold cloneLayer at hok
  obtain ⟨_, _, h₁⟩ := except_bind_eq_ok.mp hok
  exact createIn_allDeep hr hs hstep h₁

theorem captureLayer_allDeep (hr : AllDeep r) (hs : Sound r S) {op : OperationId}
    {expected : LayerHead Id} {changes : SparseChanges Id} {provenance : Option Provenance}
    {outcome : LayerUpdate Id}
    (hok : r.captureLayer op expected changes provenance = .ok (outcome, r')) : AllDeep r' := by
  have hstep := captureLayer_sound hs hok
  unfold captureLayer at hok
  obtain ⟨_, _, h₁⟩ := except_bind_eq_ok.mp hok
  obtain ⟨_, _, h₂⟩ := except_bind_eq_ok.mp h₁
  obtain ⟨before, hbefore, h₃⟩ := except_bind_eq_ok.mp h₂
  obtain ⟨⟨candidate, r₀⟩, hprep, h₄⟩ := except_bind_eq_ok.mp h₃
  obtain ⟨objects, rfl, hp, _⟩ := of_prepareCheckpoint hprep
  exact update_allDeep hr hs hp (hr.sources hbefore) hstep h₄

omit [Encoding Id] in
theorem mem_sortDedup {l : List Id} {id : Id} : id ∈ sortDedup l ↔ id ∈ l := by
  unfold sortDedup
  rw [List.mem_dedup, List.mem_mergeSort]

theorem commitStack_allDeep (hr : AllDeep r) (hs : Sound r S) {op : OperationId}
    {expected : LayerHead Id} {source : Id} {changes : SparseChanges Id} {resolution : Option Id}
    {provenance : Option Provenance} {outcome : LayerUpdate Id}
    (hok : r.commitStack op expected source changes resolution provenance = .ok (outcome, r')) :
    AllDeep r' := by
  have hstep := commitStack_sound hs hok
  unfold commitStack at hok
  obtain ⟨_, _, h₁⟩ := except_bind_eq_ok.mp hok
  obtain ⟨_, _, h₂⟩ := except_bind_eq_ok.mp h₁
  obtain ⟨stacked, hstacked, h₃⟩ := except_bind_eq_ok.mp h₂
  obtain ⟨before, hbefore, h₄⟩ := except_bind_eq_ok.mp h₃
  obtain ⟨⟨candidate, r₀⟩, hprep, h₅⟩ := except_bind_eq_ok.mp h₄
  obtain ⟨objects, rfl, hp, _⟩ := of_prepareCheckpoint hprep
  refine update_allDeep hr hs hp ?_ hstep h₅
  intro id hid
  rw [mem_sortDedup, List.mem_append, List.mem_singleton] at hid
  rcases hid with hid | rfl
  · exact hr.sources hbefore id hid
  · exact hr.deep hstacked

theorem discardLayer_allDeep (hr : AllDeep r) (hs : Sound r S) {op : OperationId}
    {expected : LayerHead Id} {outcome : LayerUpdate Id}
    (hok : r.discardLayer op expected = .ok (outcome, r')) : AllDeep r' := by
  have hstep := discardLayer_sound hs hok
  unfold discardLayer at hok
  obtain ⟨_, _, h₁⟩ := except_bind_eq_ok.mp hok
  obtain ⟨_, _, h₂⟩ := except_bind_eq_ok.mp h₁
  obtain ⟨_, hkept, _⟩ := candidate_of_updateIn h₂
  exact hr.keep hstep.1 hs.chain hstep.2.chain hkept

theorem Aside.allDeep (h : Aside r r') (hr : AllDeep r) (hs : Sound r S)
    (hstep : Later r r' ∧ ∃ S', Sound r' S') : AllDeep r' := by
  obtain ⟨hl, S', hs'⟩ := hstep
  exact hr.keep hl hs.chain hs'.chain h.checkpoints

end Repository

/-! ### Every step -/

namespace System

open Repository

theorem allDeep_of_transaction {r r' : Repository Id} {S : VersionNumber → Manifest Id}
    (h : Transaction r r') (hr : AllDeep r) (hs : Repository.Sound r S) : AllDeep r' := by
  have hstep := sound_of_transaction h hs
  cases h with
  | putBlob hok => exact (store_aside (by simp [Object.kind]) hok).allDeep hr hs hstep
  | putManifest hok => exact (putManifest_aside hok).allDeep hr hs hstep
  | putSnapshot hok => exact (putSnapshot_aside hs.chain hok).allDeep hr hs hstep
  | putTree hok => exact (putTree_aside hok).allDeep hr hs hstep
  | compareAndAdvance hok => exact (compareAndAdvance_aside hs hok).allDeep hr hs hstep
  | advanceToTree hok => exact (advanceIn_aside hs.chain (by simp) hok).allDeep hr hs hstep
  | createLayer hok => exact createLayer_allDeep hr hs hok
  | cloneLayer hok => exact cloneLayer_allDeep hr hs hok
  | captureLayer hok => exact captureLayer_allDeep hr hs hok
  | discardLayer hok => exact discardLayer_allDeep hr hs hok
  | commitStack hok => exact commitStack_allDeep hr hs hok

theorem Step.allDeep {s s' : System Id} (h : Step s s') (hs : s.Sound) (hr : AllDeep s.repository) :
    AllDeep s'.repository := by
  obtain ⟨⟨S, hrepo⟩, hplans⟩ := hs
  cases h with
  | transact ht => exact allDeep_of_transaction ht hr hrepo
  | prepare hok => exact hr
  | commit hm hok =>
      obtain ⟨hl, S', hs'⟩ := commitIn_sound hrepo (hplans _ hm) hok
      obtain ⟨_, _, hcommitted, _⟩ := of_commitIn hok
      exact hr.keep hl hrepo.chain hs'.chain hcommitted.only.checkpoints

/-- Every checkpoint that a reachable repository stores is deep. -/
theorem Reachable.allDeep {s : System Id} (h : Reachable s) : AllDeep s.repository := by
  obtain ⟨identity, hrun⟩ := h
  induction hrun with
  | refl =>
      intro id c hread
      have hnone := (Objects.grows_add [] Chunk.emptyLeaf).noCheckpoints id c hread
      cases hnone
  | tail hrun hstep ih => exact hstep.allDeep (Reachable.sound ⟨identity, hrun⟩) ih

end System

end Javelin
