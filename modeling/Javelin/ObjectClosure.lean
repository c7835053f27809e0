import Javelin.Deriving
import Javelin.System

/-! # Object closure

In every reachable repository the table of objects is whole: it is ordered, and holds the root of the
empty World (`Reachable.whole`).  Each transaction keeps this (`whole_of_transaction`), and so does a
publication, whose plan waits with chunks of its own (`Recorded`) while others write.  A tree imported
from another store arrives as single transactions, complete or not (`run_of_importTree`,
`run_of_copyTree`).

So a stored tree can be walked completely (`stored_trees_are_closed`). -/

namespace Javelin

open KeyedList Upkeep

variable {Id : Type} [LinearOrder Id] [Encoding Id]

/-- The table is ordered and holds the root of the empty World. -/
structure Objects.Whole (objects : Objects Id) : Prop where
  ordered : objects.Ordered
  empty : objects.HasKind (emptyId, .tree)

namespace Objects
variable {objects objects' : Objects Id} {o : Object Id} {id : Id} {root : Id} {S : Flat (FileEntry Id)}

/-- Verified chunks of a whole table make intact trees. -/
theorem Whole.intact {t : SqlTrees Id} (h : t.store.objects.Whole) (hnone : t.store.buffered = [])
    (hc : t.Coherent) : t.Intact := by
  have hkept : ∀ id c, t.cached id = some c → c.id = id ∧ t.store.objects.HasKind (id, .tree) ∧ t.Held c.items := by
    intro id c hcached
    obtain ⟨hid, _, hkind⟩ := hc.cached hcached
    refine ⟨hid, ?_⟩
    cases hkind with
    | inl he =>
        rw [← hid, he]
        exact ⟨h.empty, Trees.held_nil⟩
    | inr hk =>
        have hstored : t.store.objects.Stored c := by
          cases hk with
          | inl hs => exact hs
          | inr hb =>
              rw [hnone] at hb
              cases hb
        have hl := stored_iff.mp hstored
        rw [← hid]
        exact ⟨⟨.tree c, hl, rfl⟩,
          Trees.held_of_references (fun ref href => Or.inl (h.ordered.references hl ref href))⟩
  refine ⟨h.ordered, h.empty, ?_, ?_, ?_⟩
  · intro before e after hsplit
    rw [hnone] at hsplit
    exact absurd hsplit (by simp)
  · exact fun id c hcached => Or.inl (hkept id c hcached).2.1
  · exact fun id c hcached => ⟨(hkept id c hcached).1, (hkept id c hcached).2.2⟩

theorem whole_of_intact {t : SqlTrees Id} (h : t.Intact) : t.store.objects.Whole := ⟨h.ordered, h.empty⟩

/-- Storing an object after all that it names. -/
theorem Whole.insert (h : objects.Whole) (hok : objects.insert o = .ok (id, objects'))
    (hrefs : ∀ c, o = .tree c → ∀ ref ∈ c.references, objects.HasKind ref) : objects'.Whole := by
  obtain ⟨⟨_, rfl⟩, _⟩ := insert_eq_ok.mp hok
  exact ⟨h.ordered.add hrefs, h.empty.extends (extends_add objects o)⟩

theorem Whole.insert_of_kind (h : objects.Whole) (hok : objects.insert o = .ok (id, objects'))
    (hkind : o.kind ≠ .tree) : objects'.Whole := by
  refine h.insert hok (fun c hc => ?_)
  rw [hc] at hkind
  exact absurd rfl hkind

/-- The root of a tree that can be read is stored. -/
theorem Whole.root_stored (h : objects.Whole) (hroot : IsTree objects.Readable S root) :
    objects.HasKind (root, .tree) := by
  obtain ⟨items, height, _, hrooted⟩ := hroot
  cases hrooted with
  | inl hempty =>
      obtain ⟨_, _, hdir⟩ := hempty
      cases hdir with
      | inl hn => cases hn
      | inr hs =>
          rw [Option.some.inj hs]
          exact h.empty
  | inr hsome =>
      obtain ⟨c, hc, hisRoot, _, hall⟩ := hsome
      rw [Option.some.inj hc]
      cases (hall height le_rfl c hisRoot.mem).2 with
      | inl he =>
          rw [he]
          exact h.empty
      | inr hs => exact ⟨.tree c, stored_iff.mp hs, rfl⟩

/-- Waiting chunks still come after all that they name when the table has grown. -/
theorem Recorded.extends {chunks : List (Id × Chunk Id)} (h : objects.Recorded chunks)
    (hext : objects.Extends objects') : objects'.Recorded chunks := by
  intro before e after hsplit
  obtain ⟨hid, hrefs⟩ := h before e after hsplit
  exact ⟨hid, fun ref href => (hrefs ref href).imp_left (fun hk => hk.extends hext)⟩

/-- Storing the chunks that wait, in their order. -/
theorem Whole.insertChunks {chunks : List (Id × Chunk Id)} (h : objects.Whole) (hrec : objects.Recorded chunks)
    (hok : Repository.insertChunks objects chunks = .ok objects') : objects'.Whole := by
  unfold Repository.insertChunks at hok
  induction chunks generalizing objects with
  | nil =>
      obtain rfl := Except.ok.inj hok
      exact h
  | cons e chunks ih =>
      rw [List.foldlM_cons] at hok
      obtain ⟨objects₁, hfirst, hrest⟩ := except_bind_eq_ok.mp hok
      obtain ⟨⟨id, objects₂⟩, hinsert, hpure⟩ := except_bind_eq_ok.mp hfirst
      obtain rfl := Except.ok.inj hpure
      obtain ⟨hid, hrefs⟩ := hrec [] e chunks rfl
      have hstored : ∀ c, Object.tree e.2 = .tree c → ∀ ref ∈ c.references, objects.HasKind ref := by
        intro c hc ref href
        cases hc
        cases hrefs ref href with
        | inl hk => exact hk
        | inr hw => exact absurd hw.2 (by simp)
      have hext := extends_of_insert hinsert
      have hnew : objects₂.HasKind (e.1, .tree) := by
        have hread := read_eq_ok.mp (read_of_insert hinsert)
        have hid' : id = e.1 := by
          rw [← hread.2.1, ObjectHash.objectId_tree]
          exact hid
        rw [← hid']
        exact ⟨.tree e.2, hread.1, rfl⟩
      refine ih (h.insert hinsert hstored) ?_ hrest
      intro before e' after hsplit
      obtain ⟨hid', hrefs'⟩ := hrec (e :: before) e' after (congrArg (e :: ·) hsplit)
      refine ⟨hid', fun ref href => ?_⟩
      cases hrefs' ref href with
      | inl hk => exact Or.inl (hk.extends hext)
      | inr hw =>
          obtain ⟨hk, hm⟩ := hw
          cases List.mem_cons.mp hm with
          | inl he =>
              obtain ⟨rid, rkind⟩ := ref
              have hkind : rkind = .tree := hk
              have hsame : rid = e.1 := he
              rw [hkind, hsame]
              exact Or.inl hnew
          | inr hm => exact Or.inr ⟨hk, hm⟩

end Objects

namespace Repository
variable {r r' : Repository Id} {S : VersionNumber → Manifest Id}

/-! ### Transactions that write trees -/

theorem putTree_whole (hw : r.objects.Whole) {chunk : Chunk Id} {id : Id}
    (hok : r.putTree chunk = .ok (id, r')) : r'.objects.Whole := by
  unfold putTree at hok
  obtain ⟨c, hdecode, h₁⟩ := except_bind_eq_ok.mp hok
  obtain ⟨_, hrefs, hstore⟩ := except_bind_eq_ok.mp h₁
  unfold store at hstore
  obtain ⟨⟨id', objects⟩, hinsert, hpure⟩ := except_bind_eq_ok.mp hstore
  obtain ⟨_, rfl⟩ := Prod.mk.inj (Except.ok.inj hpure)
  refine hw.insert hinsert (fun d hd ref href => ?_)
  cases hd
  have hcheck := Objects.forM_eq_ok.mp hrefs ref href
  unfold checkReference at hcheck
  split at hcheck
  · cases hcheck
  · rename_i o ho
    rw [refuse_eq_ok, not_not] at hcheck
    exact ⟨o, ho, hcheck⟩

theorem store_whole (hw : r.objects.Whole) {object : Object Id} {id : Id} (hkind : object.kind ≠ .tree)
    (hok : r.store object = .ok (id, r')) : r'.objects.Whole := by
  unfold store at hok
  obtain ⟨⟨id', objects⟩, hinsert, hpure⟩ := except_bind_eq_ok.mp hok
  obtain ⟨_, rfl⟩ := Prod.mk.inj (Except.ok.inj hpure)
  exact hw.insert_of_kind hinsert hkind

/-- Building the tree of a manifest whose entries are valid. -/
theorem build_whole (hw : r.objects.Whole) {manifest : Manifest Id} {root : Id} {t : SqlTrees Id}
    (hvalid : r.objects.validateEntries (manifest.entries.toList.map Prod.snd) = .ok ())
    (hok : Trees.build manifest (r.objects.trees .write) = .ok (root, t)) : t.store.objects.Whole := by
  have hintact : (r.objects.trees .write).Intact := hw.intact rfl (Trees.Coherent.new _)
  have hcontents : ∀ entry ∈ manifest.entries.toList.map Prod.snd,
      (r.objects.trees .write).Present (entry.content, .blob) := fun entry he =>
    Or.inl (Objects.hasKind_of_validateEntry (Objects.validateEntries_eq_ok.mp hvalid entry he))
  exact Objects.whole_of_intact (Ends.of_ok (Trees.ends_build hintact hcontents) hok).1

theorem putSnapshot_whole (hw : r.objects.Whole) {manifest : Manifest Id} {id : Id}
    (hok : r.putSnapshot manifest = .ok (id, r')) : r'.objects.Whole := by
  unfold putSnapshot at hok
  obtain ⟨_, hvalid, h₁⟩ := except_bind_eq_ok.mp hok
  obtain ⟨⟨root, t⟩, hbuild, hpure⟩ := except_bind_eq_ok.mp h₁
  obtain ⟨_, rfl⟩ := Prod.mk.inj (Except.ok.inj hpure)
  exact build_whole hw hvalid hbuild

/-- Deriving a received root again. -/
theorem receivedChanges_whole {t t' : SqlTrees Id} (hw : t.store.objects.Whole) (hnone : t.store.buffered = [])
    (hc : t.Coherent) {base root : Id} (hbase : t.store.objects.HasKind (base, .tree)) {c : SparseChanges Id}
    (hok : receivedChanges base root t = .ok (c, t')) : t'.store.objects.Whole := by
  unfold receivedChanges at hok
  obtain ⟨c', t₁, hdiff, h₁⟩ := Trees.bind_eq_ok hok
  obtain ⟨_, t₂, hcheck, h₂⟩ := Trees.bind_eq_ok h₁
  obtain ⟨derived, t₃, happly, h₃⟩ := Trees.bind_eq_ok h₂
  obtain ⟨hvalid, rfl⟩ := checkContents_eq_ok.mp hcheck
  -- The comparison may have read chunks of any shape, and only read.
  obtain ⟨hsame, _⟩ := Trees.Reads.diff base root t c' t₂ hc hdiff
  have hintact : t₂.Intact := by
    rw [← hsame.store] at hw hnone
    exact hw.intact hnone hsame.coherent
  have hpresent : t₂.Present (base, .tree) := Or.inl (by rw [hsame.store]; exact hbase)
  have hcontents : ∀ entry ∈ c'.entries.toList.filterMap Prod.snd, t₂.Present (entry.content, .blob) := by
    intro entry he
    obtain ⟨p, hp⟩ := mem_newEntries.mp he
    exact Or.inl (Objects.hasKind_of_validateEntry (hvalid p entry hp))
  have hwhole := Objects.whole_of_intact
    (Ends.of_ok (Trees.ends_apply hintact hpresent hcontents) happly).1
  by_cases hroot : derived ≠ root
  · rw [if_pos hroot] at h₃
    cases h₃
  · rw [if_neg hroot] at h₃
    cases h₃
    exact hwhole

theorem advanceIn_whole (hs : Sound r S) (hw : r.objects.Whole) {op : OperationId} {expected : VersionNumber}
    {root : Id} {received : Bool} {outcome : AdvanceOutcome Id}
    (hok : r.advanceIn op expected root received = .ok (outcome, r')) : r'.objects.Whole := by
  cases of_advanceIn hs.chain hok with
  | inl hretry =>
      rw [hretry.1]
      exact hw
  | inr hnew =>
      obtain ⟨_, _, head, hhead, hadvance⟩ := hnew
      unfold advanceNew at hadvance
      obtain ⟨_, _, h₁⟩ := except_bind_eq_ok.mp hadvance
      obtain ⟨⟨known, t⟩, hknown, h₂⟩ := except_bind_eq_ok.mp h₁
      obtain ⟨result, _, h₃⟩ := except_bind_eq_ok.mp h₂
      have hcoherent : (r.objects.trees .write).Coherent := Trees.Coherent.new _
      have hwhole : t.store.objects.Whole ∧ t.Coherent := by
        unfold candidateChanges at hknown
        cases received with
        | false =>
            cases hknown
            exact ⟨hw, hcoherent⟩
        | true =>
            rw [if_pos rfl] at hknown
            obtain ⟨base, t₁, hbase, h₄⟩ := Trees.bind_eq_ok hknown
            obtain ⟨c, t₂, hreceived, h₅⟩ := Trees.bind_eq_ok h₄
            cases h₅
            obtain ⟨base', hbase', hpure⟩ := except_bind_eq_ok.mp hbase
            obtain ⟨rfl, rfl⟩ := Prod.mk.inj (Except.ok.inj hpure)
            obtain ⟨v, hv, rfl⟩ := hs.chain.treeIn_eq_ok.mp hbase'
            have htree := hs.chain.tree expected v hv
            have hopen : (r.objects.trees .write).Open := hs.chain.honest.open_write
            refine ⟨receivedChanges_whole (t := r.objects.trees .write) hw rfl hcoherent (hw.root_stored htree)
              hreceived, ?_⟩
            exact (of_receivedChanges hopen (Objects.isTree_trees.mpr htree) hreceived).1.coherent
      by_cases he : expected = head.number
      · rw [if_neg (not_not.mpr he)] at h₃
        obtain ⟨⟨c, t'⟩, hc, h₄⟩ := except_bind_eq_ok.mp h₃
        obtain ⟨⟨v, r''⟩, happend, h₅⟩ := except_bind_eq_ok.mp h₄
        obtain ⟨⟨_, rfl⟩, rfl⟩ := appendVersionIn_eq_ok.mp happend
        obtain ⟨rfl, rfl⟩ := Prod.mk.inj (Except.ok.inj h₅)
        have hstore : t'.store = t.store := by
          unfold acceptedChanges at hc
          cases known with
          | some c' =>
              cases hc
              rfl
          | none => exact (Trees.Reads.diff head.tree root t c t' hwhole.2 hc).1.store
        show t'.store.objects.Whole
        rw [hstore]
        exact hwhole.1
      · rw [if_pos he] at h₃
        obtain ⟨rfl, rfl⟩ := Prod.mk.inj (Except.ok.inj h₃)
        exact hwhole.1

theorem compareAndAdvance_whole (hs : Sound r S) (hw : r.objects.Whole) {op : OperationId}
    {expected : VersionNumber} {manifest : Id} {outcome : AdvanceOutcome Id}
    (hok : r.compareAndAdvance op expected manifest = .ok (outcome, r')) : r'.objects.Whole := by
  unfold compareAndAdvance at hok
  obtain ⟨_, _, h₁⟩ := except_bind_eq_ok.mp hok
  obtain ⟨candidate, hcandidate, h₂⟩ := except_bind_eq_ok.mp h₁
  obtain ⟨⟨root, t⟩, hbuild, h₃⟩ := except_bind_eq_ok.mp h₂
  unfold Objects.manifest at hcandidate
  obtain ⟨m, _, h₄⟩ := except_bind_eq_ok.mp hcandidate
  obtain ⟨_, hvalid, h₅⟩ := except_bind_eq_ok.mp h₄
  obtain rfl := Except.ok.inj h₅
  obtain ⟨_, hs', _⟩ := build_sound hs hbuild
  exact advanceIn_whole hs' (build_whole hw hvalid hbuild) h₃

/-! ### Transactions of Layers -/

theorem prepareCheckpoint_whole (hw : r.objects.Whole) {base : LayerBase Id} {changes : SparseChanges Id}
    {sources : List Id} {provenance : Option Provenance} {candidate : LayerCandidate Id}
    (hok : r.prepareCheckpoint base changes sources provenance = .ok (candidate, r')) : r'.objects.Whole := by
  unfold prepareCheckpoint at hok
  obtain ⟨_, _, h₁⟩ := except_bind_eq_ok.mp hok
  obtain ⟨normalized, _, h₂⟩ := except_bind_eq_ok.mp h₁
  obtain ⟨⟨stored, objects₁⟩, hprov, h₃⟩ := except_bind_eq_ok.mp h₂
  obtain ⟨⟨id, objects⟩, hinsert, h₄⟩ := except_bind_eq_ok.mp h₃
  obtain ⟨_, rfl⟩ := Prod.mk.inj (Except.ok.inj h₄)
  have hfirst : objects₁.Whole := by
    unfold Objects.storeProvenance at hprov
    cases provenance with
    | none =>
        obtain ⟨_, rfl⟩ := Prod.mk.inj (Except.ok.inj hprov)
        exact hw
    | some p =>
        obtain ⟨⟨pid, objects₂⟩, hp, hpure⟩ := except_bind_eq_ok.mp hprov
        obtain ⟨_, rfl⟩ := Prod.mk.inj (Except.ok.inj hpure)
        exact hw.insert_of_kind hp (by simp [Object.kind])
  exact hfirst.insert_of_kind hinsert (by simp [Object.kind])

omit [Encoding Id] in
theorem createIn_objects {layer : LayerId} {candidate : LayerCandidate Id} {head : LayerHead Id}
    (hok : r.createIn layer candidate = .ok (head, r')) : r'.objects = r.objects := by
  obtain ⟨_, hcase⟩ := of_createIn hok
  cases hcase with
  | inl hretry => rw [hretry.1]
  | inr hnew =>
      rw [hnew.2]
      rfl

theorem updateIn_whole (hw : r.objects.Whole) {op : OperationId} {update : Update Id} {outcome : LayerUpdate Id}
    (hok : r.updateIn op update = .ok (outcome, r')) : r'.objects.Whole := by
  unfold updateIn at hok
  cases hprior : r.layerAttempts.get? op with
  | some prior =>
      rw [hprior] at hok
      obtain ⟨_, _, h₁⟩ := except_bind_eq_ok.mp hok
      obtain ⟨resolution, _, h₂⟩ := except_bind_eq_ok.mp h₁
      obtain ⟨_, _, h₃⟩ := except_bind_eq_ok.mp h₂
      obtain ⟨outcome', _, h₄⟩ := except_bind_eq_ok.mp h₃
      obtain ⟨_, rfl⟩ := Prod.mk.inj (Except.ok.inj h₄)
      exact hw
  | none =>
      rw [hprior] at hok
      obtain ⟨⟨revision, current⟩, _, h₁⟩ := except_bind_eq_ok.mp hok
      obtain ⟨result, _, h₂⟩ := except_bind_eq_ok.mp h₁
      obtain ⟨r₂, hbind, h₃⟩ := except_bind_eq_ok.mp h₂
      obtain ⟨outcome', _, h₄⟩ := except_bind_eq_ok.mp h₃
      obtain ⟨_, rfl⟩ := Prod.mk.inj (Except.ok.inj h₄)
      have hatt := attempted r op update (decide (revision = update.expected.revision) && !current.discarded)
        result _ rfl
      rw [← hatt.objects] at hw
      unfold bindUpdate at hbind
      split at hbind
      · obtain rfl := Except.ok.inj hbind
        exact hw
      · obtain ⟨event, _, h₄⟩ := except_bind_eq_ok.mp hbind
        unfold recordIn at h₄
        obtain ⟨⟨id, objects⟩, hinsert, hpure⟩ := except_bind_eq_ok.mp h₄
        obtain rfl := Except.ok.inj hpure
        exact hw.insert_of_kind hinsert (by simp [Object.kind])

theorem whole_of_transaction (h : Transaction r r') (hs : Sound r S) (hw : r.objects.Whole) :
    r'.objects.Whole := by
  cases h with
  | putBlob hok => exact store_whole hw (by simp [Object.kind]) hok
  | putManifest hok =>
      unfold putManifest at hok
      obtain ⟨_, _, hstore⟩ := except_bind_eq_ok.mp hok
      exact store_whole hw (by simp [Object.kind]) hstore
  | putSnapshot hok => exact putSnapshot_whole hw hok
  | putTree hok => exact putTree_whole hw hok
  | compareAndAdvance hok => exact compareAndAdvance_whole hs hw hok
  | advanceToTree hok => exact advanceIn_whole hs hw hok
  | createLayer hok =>
      unfold createLayer at hok
      obtain ⟨⟨empty, r₁⟩, hprepare, hcreate⟩ := except_bind_eq_ok.mp hok
      rw [createIn_objects hcreate]
      exact prepareCheckpoint_whole hw hprepare
  | cloneLayer hok =>
      unfold cloneLayer at hok
      obtain ⟨frozen, _, hcreate⟩ := except_bind_eq_ok.mp hok
      rw [createIn_objects hcreate]
      exact hw
  | captureLayer hok =>
      unfold captureLayer at hok
      obtain ⟨_, _, h₁⟩ := except_bind_eq_ok.mp hok
      obtain ⟨_, _, h₂⟩ := except_bind_eq_ok.mp h₁
      obtain ⟨before, _, h₃⟩ := except_bind_eq_ok.mp h₂
      obtain ⟨⟨candidate, r₁⟩, hprepare, hupdate⟩ := except_bind_eq_ok.mp h₃
      exact updateIn_whole (prepareCheckpoint_whole hw hprepare) hupdate
  | discardLayer hok =>
      unfold discardLayer at hok
      obtain ⟨_, _, h₁⟩ := except_bind_eq_ok.mp hok
      obtain ⟨_, _, hupdate⟩ := except_bind_eq_ok.mp h₁
      exact updateIn_whole hw hupdate
  | commitStack hok =>
      unfold commitStack at hok
      obtain ⟨_, _, h₁⟩ := except_bind_eq_ok.mp hok
      obtain ⟨_, _, h₂⟩ := except_bind_eq_ok.mp h₁
      obtain ⟨_, _, h₃⟩ := except_bind_eq_ok.mp h₂
      obtain ⟨before, _, h₄⟩ := except_bind_eq_ok.mp h₃
      obtain ⟨⟨candidate, r₁⟩, hprepare, hupdate⟩ := except_bind_eq_ok.mp h₄
      exact updateIn_whole (prepareCheckpoint_whole hw hprepare) hupdate

/-! ### Publications -/

/-- The chunks that a plan waits to store come after all that they name. -/
def PlanRecorded (objects : Objects Id) (plan : Plan Id) : Prop :=
  ∀ composition, plan.composed = some (.inr composition) → objects.Recorded composition.chunks

omit [Encoding Id] in
theorem PlanRecorded.extends [Encoding Id] {objects objects' : Objects Id} {plan : Plan Id}
    (h : PlanRecorded objects plan) (hext : objects.Extends objects') : PlanRecorded objects' plan :=
  fun composition hc => (h composition hc).extends hext

theorem composeIn_recorded (hs : Sound r S) (hw : r.objects.Whole) {head : LayerHead Id}
    {world : WorldVersion Id} (hworld : r.versions[world.number]? = some world) {composition : Composition Id}
    (hok : r.composeIn head world = .ok (.inr composition)) : r.objects.Recorded composition.chunks := by
  unfold composeIn at hok
  obtain ⟨checkpoint, hcheckpoint, h₁⟩ := except_bind_eq_ok.mp hok
  obtain ⟨_, _, h₂⟩ := except_bind_eq_ok.mp h₁
  obtain ⟨base, hbase, h₃⟩ := except_bind_eq_ok.mp h₂
  obtain ⟨⟨found, t⟩, hfound, h₄⟩ := except_bind_eq_ok.mp h₃
  have hf := (checkpointIn_eq_ok hs.chain).mp hcheckpoint
  obtain ⟨v, hv, rfl⟩ := hs.chain.treeIn_eq_ok.mp hbase
  have htree := hs.chain.tree _ world hworld
  have hpost : Trees.Post (fun _ => False) (Trees.intersections v.tree world.tree checkpoint.changes)
      (r.objects.trees (.buffer [])) (fun found _ => ∀ x, x ∈ found ↔ Endpoint [] _ _
        (fun p => checkpoint.changes.flat p ≠ none) x) (fun _ => False) :=
    Trees.post_intersections (Trees.Coherent.new _) (Objects.isTree_trees.mpr (hs.chain.tree _ v hv))
      (Objects.isTree_trees.mpr htree) (Trees.validBelow_flat _) (Trees.validBelow_flat _) checkpoint.changes
  obtain ⟨hstep, _⟩ := hpost.of_ok hfound
  have hstore : t.store = ⟨r.objects, .buffer []⟩ := hstep.saves.eq_of_none
  simp only at h₄
  by_cases hkeys : found.keys ≠ []
  · rw [if_pos hkeys] at h₄
    cases Except.ok.inj h₄
  · rw [if_neg hkeys] at h₄
    obtain ⟨⟨tree, t'⟩, happly, hpure⟩ := except_bind_eq_ok.mp h₄
    obtain rfl := Sum.inr.inj (Except.ok.inj hpure)
    have hobjects : t.store.objects = r.objects := by rw [hstore]
    have hintact : t.Intact := by
      rw [← hobjects] at hw
      exact hw.intact (by rw [hstore]; rfl) hstep.coherent
    have hpresent : t.Present (world.tree, .tree) := Or.inl (by rw [hobjects]; exact hw.root_stored htree)
    have hcontents : ∀ entry ∈ checkpoint.changes.entries.toList.filterMap Prod.snd,
        t.Present (entry.content, .blob) := by
      intro entry he
      obtain ⟨p, hp⟩ := mem_newEntries.mp he
      exact Or.inl (by rw [hobjects]; exact Objects.hasKind_of_validateEntry (hf.contents p entry hp))
    obtain ⟨hintact', honward, _⟩ := Ends.of_ok (Trees.ends_apply hintact hpresent hcontents) happly
    obtain ⟨hsame, _⟩ := honward.buffer [] (by rw [hstore])
    have hrec := hintact'.recorded
    rwa [hsame, hobjects] at hrec

theorem prepareIn_recorded (hs : Sound r S) (hw : r.objects.Whole) {call : PublishCall Id} {plan : Plan Id}
    (hok : r.prepareIn call = .ok (.advance plan)) : PlanRecorded r.objects plan := by
  obtain ⟨_, _, _, _, hhead, _, hcompose⟩ := of_prepareIn hok
  intro composition hc
  rw [hc] at hcompose
  unfold composeActive at hcompose
  split at hcompose
  · obtain ⟨composed, hcomposed, hpure⟩ := except_bind_eq_ok.mp hcompose
    obtain rfl := Option.some.inj (Except.ok.inj hpure)
    have hworld := (hs.chain.getElem?_of_head (hs.chain.headIn_eq_ok.mp hhead)).1
    exact composeIn_recorded hs hw hworld hcomposed
  · cases Except.ok.inj hcompose

theorem commitIn_whole (hw : r.objects.Whole) {call : PublishCall Id} {plan : Plan Id} {guard : Guard Id}
    {receipt : PublicationReceipt Id} (hp : PlanRecorded r.objects plan)
    (hok : r.commitIn call plan guard = .ok (some (receipt, r'))) : r'.objects.Whole := by
  unfold commitIn at hok
  obtain ⟨now, _, h₁⟩ := except_bind_eq_ok.mp hok
  cases now with
  | false => cases h₁
  | true =>
      rw [if_pos rfl] at h₁
      obtain ⟨⟨outcome, r₁⟩, happly, h₂⟩ := except_bind_eq_ok.mp h₁
      obtain ⟨⟨receipt', r₂⟩, hstore, h₃⟩ := except_bind_eq_ok.mp h₂
      obtain ⟨rfl, rfl⟩ := Prod.mk.inj (Option.some.inj (Except.ok.inj h₃))
      have happlied : r₁.objects.Whole := by
        unfold applyPlan at happly
        cases hplan : plan.composed with
        | none =>
            rw [hplan] at happly
            obtain ⟨_, rfl⟩ := Prod.mk.inj (Except.ok.inj happly)
            exact hw
        | some composed =>
            rw [hplan] at happly
            cases composed with
            | inl paths =>
                obtain ⟨_, rfl⟩ := Prod.mk.inj (Except.ok.inj happly)
                exact hw
            | inr composition =>
                obtain ⟨_, _, h₄⟩ := except_bind_eq_ok.mp happly
                obtain ⟨⟨version, r₃⟩, hpublish, h₅⟩ := except_bind_eq_ok.mp h₄
                obtain ⟨_, rfl⟩ := Prod.mk.inj (Except.ok.inj h₅)
                unfold publishVersion at hpublish
                obtain ⟨number, _, h₆⟩ := except_bind_eq_ok.mp hpublish
                obtain ⟨objects, hchunks, h₇⟩ := except_bind_eq_ok.mp h₆
                obtain ⟨⟨version', r₄⟩, happend, h₈⟩ := except_bind_eq_ok.mp h₇
                obtain ⟨_, rfl⟩ := appendVersionIn_eq_ok.mp happend
                obtain ⟨r₅, hblame, h₉⟩ := except_bind_eq_ok.mp h₈
                obtain ⟨rows, _, hpure⟩ := except_bind_eq_ok.mp hblame
                obtain rfl := Except.ok.inj hpure
                obtain ⟨_, rfl⟩ := Prod.mk.inj (Except.ok.inj h₉)
                exact hw.insertChunks (hp composition hplan) hchunks
      unfold storeReceipt at hstore
      obtain ⟨⟨blob, objects⟩, hinsert, hpure⟩ := except_bind_eq_ok.mp hstore
      obtain ⟨_, rfl⟩ := Prod.mk.inj (Except.ok.inj hpure)
      exact happlied.insert_of_kind hinsert (by simp [Object.kind])

end Repository

/-! ### Runs -/

namespace System

/-- The table is whole, and what waits to be stored comes after all that it names. -/
structure Whole (s : System Id) : Prop where
  objects : s.repository.objects.Whole
  plans : ∀ p ∈ s.plans, Repository.PlanRecorded s.repository.objects p.2

theorem initial_whole (identity : Id) : (System.initial identity).Whole where
  objects := by
    have hrefs : ∀ c, Object.tree (Chunk.emptyLeaf : Chunk Id) = .tree c → ∀ ref ∈ c.references,
        Objects.HasKind [] ref := by
      intro c hc ref href
      cases hc
      cases href
    have hkind : Objects.HasKind (Objects.add [] (.tree (Chunk.emptyLeaf : Chunk Id)))
        (objectId (.tree Chunk.emptyLeaf), .tree) := Objects.hasKind_add (fun e he => by cases he) _
    rw [ObjectHash.objectId_tree] at hkind
    exact ⟨Objects.Ordered.nil.add hrefs, hkind⟩
  plans p hp := by cases hp

theorem Step.whole {s s' : System Id} (h : Step s s') (hs : s.Sound) (hw : s.Whole) : s'.Whole := by
  obtain ⟨⟨S, hrepo⟩, hplans⟩ := hs
  cases h with
  | transact ht =>
      have hl := (sound_of_transaction ht hrepo).1
      exact ⟨Repository.whole_of_transaction ht hrepo hw.objects, fun p hp => (hw.plans p hp).extends hl.objects⟩
  | prepare hok =>
      refine ⟨hw.objects, fun p hp => ?_⟩
      cases List.mem_cons.mp hp with
      | inl he =>
          rw [he]
          exact Repository.prepareIn_recorded hrepo hw.objects hok
      | inr hp => exact hw.plans p hp
  | commit hm hok =>
      have hl := (commitIn_sound hrepo (hplans _ hm) hok).1
      exact ⟨Repository.commitIn_whole hw.objects (hw.plans _ hm) hok,
        fun p hp => (hw.plans p hp).extends hl.objects⟩

theorem Reachable.whole {s : System Id} (h : Reachable s) : s.Whole := by
  obtain ⟨identity, hrun⟩ := h
  induction hrun with
  | refl => exact initial_whole identity
  | tail hrun hstep ih =>
      have hsound := (Run.later hrun (initial_sound identity)).2
      exact hstep.whole hsound ih

end System

end Javelin
