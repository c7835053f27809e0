import Javelin.Attach
import Javelin.ObjectClosure
import Javelin.Receipts
import Javelin.Stored
import Javelin.Tracking

/-! # Attaches among other writers

Any number of attaches run on one store, each stopped anywhere, while other clients publish.
`AttachInv` holds in every state: what no publication appended was appended by attaches, below everything
that was published, and `attach.json` names the tree of a version.

`attach_keeps_history`: if no publication moved the World between the head that the check let pass and the
second read, an attach appends only to versions of attaches.  Without that it buries what was published
(`attach_buries_publication`). -/

namespace Javelin

open KeyedList Bytes Repository

variable {Id : Type} [LinearOrder Id] [Encoding Id]

namespace LocalStore

/-! ### Other steps and publications -/

section others
variable {r r' : Repository Id} {S : VersionNumber → Manifest Id}

omit [Encoding Id] in
theorem createIn_publications {layer : LayerId} {candidate : LayerCandidate Id} {layerHead : LayerHead Id}
    (hok : r.createIn layer candidate = .ok (layerHead, r')) : r'.publications = r.publications := by
  obtain ⟨_, h⟩ := of_createIn hok
  obtain ⟨rfl, _⟩ | ⟨_, rfl⟩ := h
  · rfl
  · rfl

theorem updateIn_publications {op : OperationId} {u : Update Id} {outcome : LayerUpdate Id}
    (hok : r.updateIn op u = .ok (outcome, r')) : r'.publications = r.publications := by
  cases of_updateIn hok with
  | inl h => rw [h.1]
  | inr h =>
      obtain ⟨_, _, _, _, hrec⟩ := h
      exact hrec.only.publications

theorem prepareCheckpoint_publications {base : LayerBase Id} {changes : SparseChanges Id} {sources : List Id}
    {provenance : Option Provenance} {candidate : LayerCandidate Id}
    (hok : r.prepareCheckpoint base changes sources provenance = .ok (candidate, r')) :
    r'.publications = r.publications := by
  obtain ⟨objects, rfl, _⟩ := of_prepareCheckpoint hok
  rfl

theorem publications_of_transaction (h : Transaction r r') (hs : Repository.Sound r S) :
    r'.publications = r.publications := by
  cases h with
  | putBlob hok => exact (store_aside (by simp [Object.kind]) hok).publications
  | putManifest hok => exact (putManifest_aside hok).publications
  | putSnapshot hok => exact (putSnapshot_aside hs.chain hok).publications
  | putTree hok => exact (putTree_aside hok).publications
  | compareAndAdvance hok => exact (compareAndAdvance_aside hs hok).publications
  | advanceToTree hok => exact (advanceIn_aside hs.chain (by simp) hok).publications
  | createLayer hok =>
      unfold createLayer at hok
      obtain ⟨⟨empty, r₁⟩, hprepare, hcreate⟩ := except_bind_eq_ok.mp hok
      exact (createIn_publications hcreate).trans (prepareCheckpoint_publications hprepare)
  | cloneLayer hok =>
      unfold cloneLayer at hok
      obtain ⟨frozen, _, hcreate⟩ := except_bind_eq_ok.mp hok
      exact createIn_publications hcreate
  | captureLayer hok =>
      unfold captureLayer at hok
      obtain ⟨_, _, h₁⟩ := except_bind_eq_ok.mp hok
      obtain ⟨_, _, h₂⟩ := except_bind_eq_ok.mp h₁
      obtain ⟨before, _, h₃⟩ := except_bind_eq_ok.mp h₂
      obtain ⟨⟨candidate, r₁⟩, hprepare, hupdate⟩ := except_bind_eq_ok.mp h₃
      exact (updateIn_publications hupdate).trans (prepareCheckpoint_publications hprepare)
  | discardLayer hok =>
      unfold discardLayer at hok
      obtain ⟨_, _, h₁⟩ := except_bind_eq_ok.mp hok
      obtain ⟨_, _, hupdate⟩ := except_bind_eq_ok.mp h₁
      exact updateIn_publications hupdate
  | commitStack hok =>
      unfold commitStack at hok
      obtain ⟨_, _, h₁⟩ := except_bind_eq_ok.mp hok
      obtain ⟨_, _, h₂⟩ := except_bind_eq_ok.mp h₁
      obtain ⟨_, _, h₃⟩ := except_bind_eq_ok.mp h₂
      obtain ⟨before, _, h₄⟩ := except_bind_eq_ok.mp h₃
      obtain ⟨⟨candidate, r₁⟩, hprepare, hupdate⟩ := except_bind_eq_ok.mp h₄
      exact (updateIn_publications hupdate).trans (prepareCheckpoint_publications hprepare)

/-- A version that no publication appended stays so, and one that a publication appended too. -/
theorem publications_get?_iff {t t' : System Id} (h : System.Step t t') (hs : t.Sound)
    {v : WorldVersion Id} (hv : v ∈ t.repository.versions) {op : OperationId} (hop : v.operation = some op) :
    t'.repository.publications.get? op = none ↔ t.repository.publications.get? op = none := by
  obtain ⟨⟨S, hrepo⟩, hplans⟩ := hs
  cases h with
  | transact ht => rw [publications_of_transaction ht hrepo]
  | prepare _ => exact Iff.rfl
  | commit hm hok =>
      obtain ⟨hcurrent, outcome, hcommitted, _⟩ := of_commitIn hok
      obtain ⟨blob, hpubs, _⟩ := hcommitted.publications
      obtain ⟨_, hfresh, _⟩ := (current_eq_ok hrepo.chain).mp hcurrent
      obtain ⟨n, hn⟩ := List.getElem?_of_mem hv
      obtain ⟨tree, hb⟩ := hrepo.chain.attempt_of_operation hn hop
      rw [hpubs, SortedMap.get?_insert, if_neg]
      rintro rfl
      cases hfresh.symm.trans hb.attempt

end others

/-! ### What grows -/

section moves
variable {s s' s'' : LocalStore Id}

/-- A later state, in which the same versions are unpublished. -/
structure Grown (s s' : LocalStore Id) : Prop where
  later : Later s.repository s'.repository
  unpublished : ∀ v ∈ s.repository.versions, s'.Unpublished v ↔ s.Unpublished v

omit [Encoding Id] in
theorem Grown.refl (s : LocalStore Id) : Grown s s := ⟨.refl _, fun _ _ => Iff.rfl⟩

omit [Encoding Id] in
theorem Grown.mem (h : Grown s s') {v : WorldVersion Id} (hv : v ∈ s.repository.versions) :
    v ∈ s'.repository.versions := by
  obtain ⟨n, hn⟩ := List.getElem?_of_mem hv
  exact List.mem_of_getElem? (h.later.versions n v hn)

omit [Encoding Id] in
theorem Grown.trans (h : Grown s s') (h' : Grown s' s'') : Grown s s'' :=
  ⟨h.later.trans h'.later, fun v hv => (h'.unpublished v (h.mem hv)).trans (h.unpublished v hv)⟩

theorem grown_of_step (h : System.Step s.system s'.system) (hs : s.system.Sound) : Grown s s' := by
  refine ⟨(h.sound hs).1, fun v hv => ?_⟩
  unfold Unpublished
  constructor
  · exact fun hnone op hop => (publications_get?_iff h hs hv hop).mp (hnone op hop)
  · exact fun hnone op hop => (publications_get?_iff h hs hv hop).mpr (hnone op hop)

/-- The tree is that of a version. -/
def HasTree (s : LocalStore Id) (tree : Id) : Prop := ∃ v ∈ s.repository.versions, v.tree = tree

omit [Encoding Id] in
theorem HasTree.grown {tree : Id} (h : s.HasTree tree) (hg : Grown s s') : s'.HasTree tree := by
  obtain ⟨v, hv, htree⟩ := h
  exact ⟨v, hg.mem hv, htree⟩

/-! ### The invariant -/

variable [IdBytes Id]

structure AttachInv (s : LocalStore Id) : Prop where
  reachable : System.Reachable s.system
  below : ∀ (m n : ℕ) v w, m ≤ n → s.repository.versions[m]? = some v → s.repository.versions[n]? = some w →
    s.Unpublished w → s.Unpublished v
  own : ∀ v ∈ s.repository.versions, v.number ≠ 0 → s.Unpublished v →
    ∃ remote : RemoteHead Id, v.operation = some (attachOperation remote)
  attached : ∀ attachment, s.attachment = some attachment → s.HasTree attachment.head.tree

/-- Every version is an attach's own, or the first. -/
def Own (s : LocalStore Id) : Prop :=
  ∀ v ∈ s.repository.versions, v.number ≠ 0 →
    ∃ remote : RemoteHead Id, v.operation = some (attachOperation remote) ∧ s.Unpublished v

/-- One step of a client: the World stays, or it gets a version that was published, or one of an attach on
top of versions of attaches. -/
structure Moves (s s' : LocalStore Id) : Prop where
  run : System.Run s.system s'.system
  grown : Grown s s'
  versions : s'.repository.versions = s.repository.versions ∨
    ∃ v, s'.repository.versions = s.repository.versions ++ [v] ∧
      (s'.Unpublished v → (∀ w ∈ s.repository.versions, s.Unpublished w) ∧
        ∃ remote : RemoteHead Id, v.operation = some (attachOperation remote))
  attachment : ∀ attachment, s'.attachment = some attachment →
    s.attachment = some attachment ∨ s'.HasTree attachment.head.tree

theorem AttachInv.moves (h : AttachInv s) (hm : Moves s s') : AttachInv s' := by
  refine ⟨h.reachable.run hm.run, ?_, ?_, ?_⟩
  · intro m n v w hle hv hw hfree
    obtain hsame | ⟨last, happend, hlast⟩ := hm.versions
    · rw [hsame] at hv hw
      have hw' := (hm.grown.unpublished w (List.mem_of_getElem? hw)).mp hfree
      exact (hm.grown.unpublished v (List.mem_of_getElem? hv)).mpr (h.below m n v w hle hv hw hw')
    · rw [happend] at hv hw
      cases Nat.lt_or_ge n s.repository.versions.length with
      | inl hn =>
          rw [List.getElem?_append_left hn] at hw
          rw [List.getElem?_append_left (by omega)] at hv
          have hw' := (hm.grown.unpublished w (List.mem_of_getElem? hw)).mp hfree
          exact (hm.grown.unpublished v (List.mem_of_getElem? hv)).mpr (h.below m n v w hle hv hw hw')
      | inr hn =>
          rw [List.getElem?_append_right hn, List.getElem?_singleton] at hw
          obtain ⟨_, rfl⟩ := Option.ite_none_right_eq_some.mp hw |>.imp id Option.some.inj
          -- The new version is an attach's, so all versions below it are unpublished.
          cases Nat.lt_or_ge m s.repository.versions.length with
          | inl hm' =>
              rw [List.getElem?_append_left hm'] at hv
              have hmem := List.mem_of_getElem? hv
              exact (hm.grown.unpublished v hmem).mpr ((hlast hfree).1 v hmem)
          | inr hm' =>
              rw [List.getElem?_append_right hm', List.getElem?_singleton] at hv
              obtain ⟨_, rfl⟩ := Option.ite_none_right_eq_some.mp hv |>.imp id Option.some.inj
              exact hfree
  · intro v hv hzero hfree
    have hold : v ∈ s.repository.versions → ∃ remote : RemoteHead Id, v.operation = some (attachOperation remote) :=
      fun hmem => h.own v hmem hzero ((hm.grown.unpublished v hmem).mp hfree)
    obtain hsame | ⟨last, happend, hlast⟩ := hm.versions
    · exact hold (hsame ▸ hv)
    · rw [happend, List.mem_append, List.mem_singleton] at hv
      obtain hmem | rfl := hv
      · exact hold hmem
      · exact (hlast hfree).2
  · intro attachment ha
    cases hm.attachment attachment ha with
    | inl hbefore => exact (h.attached attachment hbefore).grown hm.grown
    | inr htree => exact htree

omit [IdBytes Id] in
theorem Others.step (h : Others s s') : System.Step s.system s'.system ∧ s'.attachment = s.attachment := by
  cases h with
  | transact ht _ => exact ⟨.transact ht, rfl⟩
  | prepare hok => exact ⟨.prepare hok, rfl⟩
  | commit hm hok => exact ⟨.commit hm hok, rfl⟩

theorem Others.moves (h : Others s s') (hs : s.system.Sound) : Moves s s' := by
  obtain ⟨hstep, hattachment⟩ := h.step
  refine ⟨.single hstep, grown_of_step hstep hs, ?_, fun _ ha => .inl (hattachment ▸ ha)⟩
  cases h with
  | transact ht hquiet => exact .inl hquiet
  | prepare hok => exact .inl rfl
  | commit hm hok =>
      obtain ⟨_, outcome, hcommitted, _⟩ := of_commitIn hok
      obtain ⟨blob, hpubs, _⟩ := hcommitted.publications
      cases hcommitted.world with
      | layerStale _ hversions => exact .inl hversions
      | conflict _ _ hversions => exact .inl hversions
      | published composition version _ hp =>
          refine .inr ⟨version, hp.versions, fun hfree => ?_⟩
          have hnone := hfree _ (by rw [hp.version_eq]; rfl)
          rw [hpubs, SortedMap.get?_insert, if_pos rfl] at hnone
          cases hnone

/-- One step of an attach: what it appends stands on versions of attaches only. -/
structure Attaches (s s' : LocalStore Id) : Prop extends Moves s s' where
  appends : s'.repository.versions = s.repository.versions ∨
    (∃ v, s'.repository.versions = s.repository.versions ++ [v]) ∧ s.Own

theorem Moves.refl (s : LocalStore Id) : Moves s s := ⟨.refl, .refl s, .inl rfl, fun _ ha => .inl ha⟩

theorem Attaches.refl (s : LocalStore Id) : Attaches s s := ⟨.refl s, .inl rfl⟩

/-- If the head is unpublished, every version is an attach's own. -/
theorem AttachInv.own_of_head (h : AttachInv s) {world : WorldVersion Id}
    (hlast : s.repository.versions.getLast? = some world) (hfree : s.Unpublished world) : s.Own := by
  intro v hv hzero
  obtain ⟨n, hn⟩ := List.getElem?_of_mem hv
  rw [List.getLast?_eq_getElem?] at hlast
  obtain ⟨hlt, _⟩ := List.getElem?_eq_some_iff.mp hn
  have hfree' := h.below n _ v world (by omega) hn hlast hfree
  obtain ⟨remote, hop⟩ := h.own v hv hzero hfree'
  exact ⟨remote, hop, hfree'⟩

end moves

/-! ### What an attach keeps -/

section commands
variable {r r' : Repository Id} {S : VersionNumber → Manifest Id}

/-- What `advance_to_tree` does: it answers again, records a stale attempt, or appends a version. -/
theorem of_advanceToTree (hc : Chain r S) {op : OperationId} {expected : VersionNumber} {tree : Id}
    {outcome : AdvanceOutcome Id} (hok : r.advanceToTree op expected tree = .ok (outcome, r')) :
    (r'.versions = r.versions ∧ ∀ v, outcome = .accepted v → v ∈ r.versions ∧ v.tree = tree) ∨
    ∃ world v, r.versions.getLast? = some world ∧ world.number = expected ∧ r'.versions = r.versions ++ [v] ∧
      v.operation = some op ∧ v.tree = tree ∧ r.publications.get? op = none := by
  obtain ⟨rfl, a, hattempt, hexpected, htree, hout⟩ | ⟨hused, _, world, hlast, hadvance⟩ :=
    of_advanceIn hc hok
  · refine .inl ⟨rfl, ?_⟩
    rintro v rfl
    unfold attemptOutcome at hout
    obtain ⟨actual, hactual, h₁⟩ := except_bind_eq_ok.mp hout
    by_cases hacc : a.accepted = true
    · rw [if_pos hacc] at h₁
      obtain ⟨_, hrefuse, hpure⟩ := except_bind_eq_ok.mp h₁
      obtain rfl := AdvanceOutcome.accepted.inj (Except.ok.inj hpure)
      rw [refuse_eq_ok, not_or, not_not, not_not] at hrefuse
      unfold resultVersion at hactual
      cases hv : r'.versionIn a.result with
      | error e =>
          rw [hv] at hactual
          cases hactual
      | ok version =>
          rw [hv] at hactual
          obtain rfl := Except.ok.inj hactual
          have hn := hc.versionIn_eq_ok.mp hv
          obtain ⟨tree', hb⟩ := hc.attempt_of_operation hn hrefuse.2
          have hsame := Option.some.inj (hattempt.symm.trans hb.attempt)
          have htree' : tree' = some tree := by rw [← htree, hsame]
          exact ⟨List.mem_of_getElem? hn, (hb.tree tree htree').symm⟩
    · rw [if_neg hacc] at h₁
      obtain ⟨_, _, hpure⟩ := except_bind_eq_ok.mp h₁
      cases hpure
  · obtain ⟨objects, T, _, _, _, ha⟩ := of_advanceNew hc hlast (by simp) hadvance
    cases ha with
    | stale hlt =>
        refine .inl ⟨rfl, ?_⟩
        rintro v hv
        cases hv
    | accepted c he hlt hc' =>
        unfold operationExists at hused
        rw [Option.isSome_eq_false_iff, Option.isNone_iff_eq_none] at hused
        exact .inr ⟨world, _, hlast, he.symm, rfl, rfl, rfl, hused⟩

/-- A version is given by its number. -/
theorem eq_of_number (hc : Chain r S) {v w : WorldVersion Id} (hv : v ∈ r.versions) (hw : w ∈ r.versions)
    (hnum : v.number = w.number) : v = w := by
  obtain ⟨n, hn⟩ := List.getElem?_of_mem hv
  obtain ⟨m, hm⟩ := List.getElem?_of_mem hw
  obtain rfl : n = m := by rw [← hc.contiguous n v hn, ← hc.contiguous m w hm, hnum]
  exact Option.some.inj (hn.symm.trans hm)

theorem number_le_of_head (hc : Chain r S) {v world : WorldVersion Id} (hv : v ∈ r.versions)
    (hlast : r.versions.getLast? = some world) : v.number ≤ world.number := by
  obtain ⟨n, hn⟩ := List.getElem?_of_mem hv
  obtain ⟨hlt, _⟩ := List.getElem?_eq_some_iff.mp hn
  obtain ⟨_, hlen⟩ := hc.getElem?_of_head hlast
  rw [hc.contiguous n v hn]
  rw [hlen] at hlt
  exact Nat.le_of_lt_succ hlt

variable [IdBytes Id]

/-- The commands of attaches keep the invariant and append to versions of attaches only. -/
abbrev Safe {α : Type} (post : LocalStore Id → Except (Error Id) α → Prop) (p : AttachM Id α)
    (s : LocalStore Id) : Prop :=
  p.Keeps AttachInv Grown Attaches Undisturbed post s

theorem chain_of_inv {s : LocalStore Id} (h : AttachInv s) : ∃ S, Repository.Sound s.repository S :=
  h.reachable.sound.repository

theorem unpublished_of_zero {s : LocalStore Id} (h : AttachInv s) {v : WorldVersion Id}
    (hv : v ∈ s.repository.versions) (hzero : v.number = 0) : s.Unpublished v := by
  obtain ⟨S, hs⟩ := chain_of_inv h
  obtain ⟨n, hn⟩ := List.getElem?_of_mem hv
  have hnum := hs.chain.contiguous n v hn
  obtain rfl : n = 0 := hnum.symm.trans hzero
  obtain rfl := Option.some.inj (hs.chain.first.symm.trans hn)
  intro op hop
  cases hop

/-- A head that was read is a version. -/
theorem mem_of_headIn {s : LocalStore Id} (h : AttachInv s) {world : WorldVersion Id}
    (hok : s.repository.headIn = .ok world) : s.repository.versions.getLast? = some world ∧
      world ∈ s.repository.versions := by
  obtain ⟨S, hs⟩ := chain_of_inv h
  have hlast := hs.chain.headIn_eq_ok.mp hok
  exact ⟨hlast, List.mem_of_getLast? hlast⟩

theorem safe_interruptedAttach (s : LocalStore Id) : Safe (fun s result => ∀ b v, result = .ok (b, v) →
    v ∈ s.repository.versions ∧ (b = true → s.Unpublished v)) interruptedAttach s := by
  unfold interruptedAttach head
  apply Process.keeps_bind
  apply Process.keeps_read Attaches.refl
  intro s₁ hinv _ _
  cases hhead : s₁.repository.headIn with
  | error e =>
      intro b v h
      cases h
  | ok world =>
      obtain ⟨hlast, hmem⟩ := mem_of_headIn hinv hhead
      have hrefused : ∀ s', Grown s₁ s' → ∀ b v, (Except.ok (false, world) : Except (Error Id) _) = .ok (b, v) →
          v ∈ s'.repository.versions ∧ (b = true → s'.Unpublished v) := by
        rintro s' hg b v ⟨⟩
        exact ⟨hg.mem hmem, fun h => by cases h⟩
      dsimp only
      cases hop : world.operation.filter (fun operation => ATTACH_PREFIX.isPrefixOf operation.text) with
      | none => exact hrefused s₁ (.refl _)
      | some operation =>
          obtain ⟨hop, _⟩ := Option.filter_eq_some_iff.mp hop
          apply Process.keeps_bind
          apply Process.keeps_read Attaches.refl
          intro s₂ _ hg₂ _
          dsimp only
          cases hattached : s₂.attachment.isSome with
          | true => exact hrefused s₂ hg₂
          | false =>
              apply Process.keeps_bind
              apply Process.keeps_read Attaches.refl
              intro s₃ _ hg₃ _
              cases hreceipt : s₃.repository.publication operation with
              | error e =>
                  intro b v h
                  cases h
              | ok receipt =>
                  rintro b v ⟨⟩
                  refine ⟨(hg₂.trans hg₃).mem hmem, fun hnone op hop' => ?_⟩
                  obtain rfl := Option.some.inj (hop.symm.trans hop')
                  cases hrow : s₃.repository.publications.get? operation with
                  | none => rfl
                  | some row =>
                      unfold Repository.publication at hreceipt
                      rw [hrow] at hreceipt
                      obtain ⟨receipt', _, hpure⟩ := except_bind_eq_ok.mp hreceipt
                      obtain rfl := Except.ok.inj hpure
                      cases hnone

/-- The head that the check lets pass is unpublished. -/
theorem safe_checkAttach (s : LocalStore Id) : Safe (fun s result => ∀ v, result = .ok v →
    v ∈ s.repository.versions ∧ s.Unpublished v) checkAttach s := by
  unfold checkAttach head
  apply Process.keeps_bind
  apply Process.keeps_read Attaches.refl
  intro s₁ hinv _ _
  cases hhead : s₁.repository.headIn with
  | error e =>
      intro v h
      cases h
  | ok world =>
      obtain ⟨_, hmem⟩ := mem_of_headIn hinv hhead
      dsimp only
      by_cases hzero : world.number = 0
      · rw [if_pos hzero]
        rintro v ⟨⟩
        exact ⟨hmem, unpublished_of_zero hinv hmem hzero⟩
      · rw [if_neg hzero]
        apply Process.keeps_bind
        apply (safe_interruptedAttach s₁).imp
        intro s₂ result hresult
        cases result with
        | error e =>
            intro v h
            cases h
        | ok answer =>
            obtain ⟨hmem', hfree⟩ := hresult answer.1 answer.2 rfl
            dsimp only
            cases hb : answer.1 with
            | false =>
                intro v h
                cases h
            | true =>
                rintro v ⟨⟩
                exact ⟨hmem', hfree hb⟩

variable {post : LocalStore Id → Except (Error Id) Unit → Prop}

/-- After the check: the head is unpublished when it is read again, and still when it is replaced. -/
theorem safe_advanceTo {remote : RemoteHead Id} {checked : WorldVersion Id} {s : LocalStore Id}
    (hmem : checked ∈ s.repository.versions) (hfree : s.Unpublished checked)
    (herror : ∀ s e, post s (.error e)) (hpost : ∀ s, s.HasTree remote.tree → post s (.ok ())) :
    Safe post (advanceTo remote checked) s := by
  unfold advanceTo head
  apply Process.keeps_bind
  apply Process.keeps_read Attaches.refl
  intro s₁ hinv hg₁ hallowed
  cases hhead : s₁.repository.headIn with
  | error e => exact herror s₁ e
  | ok world =>
      obtain ⟨hlast, hworld⟩ := mem_of_headIn hinv hhead
      dsimp only
      by_cases htree : world.tree = remote.tree
      · rw [if_pos htree]
        exact hpost s₁ ⟨world, hworld, htree⟩
      rw [if_neg htree]
      -- No publication came in between, so this head is the checked one or an attach's.
      have hfree₁ : s₁.Unpublished world := by
        obtain ⟨S, hs⟩ := chain_of_inv hinv
        cases hallowed with
        | inl hsame => exact absurd (hsame world (by rw [hlast]; rfl)) htree
        | inr hquiet =>
            cases (number_le_of_head hs.chain (hg₁.mem hmem) hlast).lt_or_eq with
            | inl hlt => exact hquiet world hworld hlt
            | inr heq =>
                obtain rfl := eq_of_number hs.chain (hg₁.mem hmem) hworld heq
                exact (hg₁.unpublished checked hmem).mpr hfree
      unfold advanceToTree
      apply Process.keeps_bind
      apply Process.keeps_transact Attaches.refl
      · exact fun s₂ e _ _ _ => herror s₂ e
      intro s₂ outcome s₃ hinv₂ hg₂ _ hok
      obtain ⟨S, hs⟩ := chain_of_inv hinv₂
      obtain ⟨⟨outcome', r⟩, hadvance, hpure⟩ := except_bind_eq_ok.mp hok
      obtain ⟨rfl, rfl⟩ := Prod.mk.inj (Except.ok.inj hpure)
      have hstep : System.Step s₂.system (s₂.withRepository r).system := .transact (.advanceToTree hadvance)
      have hgrown : Grown s₂ (s₂.withRepository r) := grown_of_step hstep hinv₂.reachable.sound
      obtain ⟨hsame, hold⟩ | ⟨last, v, hlast₂, hnum, happend, hop, hnew, _⟩ := of_advanceToTree hs.chain hadvance
      · refine ⟨⟨⟨.single hstep, hgrown, .inl hsame, fun _ ha => .inl ha⟩, .inl hsame⟩, ?_⟩
        cases outcome' with
        | stale _ => exact herror _ _
        | accepted v =>
            obtain ⟨hv, hnew⟩ := hold v rfl
            exact hpost _ ⟨v, hgrown.mem hv, hnew⟩
      · have hlastmem : last ∈ s₂.repository.versions := List.mem_of_getLast? hlast₂
        obtain rfl := eq_of_number hs.chain hlastmem (hg₂.mem hworld) hnum
        have hown := hinv₂.own_of_head hlast₂ ((hg₂.unpublished last hworld).mpr hfree₁)
        have hall : ∀ w ∈ s₂.repository.versions, s₂.Unpublished w := by
          intro w hw
          by_cases hzero : w.number = 0
          · exact unpublished_of_zero hinv₂ hw hzero
          · obtain ⟨_, _, hfree'⟩ := hown w hw hzero
            exact hfree'
        refine ⟨⟨⟨.single hstep, hgrown, .inr ⟨v, happend, fun _ => ⟨hall, remote, hop⟩⟩, fun _ ha => .inl ha⟩,
          .inr ⟨⟨v, happend⟩, hown⟩⟩, ?_⟩
        cases outcome' with
        | stale _ => exact herror _ _
        | accepted _ =>
            refine hpost _ ⟨v, ?_, hnew⟩
            show v ∈ r.versions
            rw [happend]
            exact List.mem_append_right _ (List.mem_singleton_self v)

theorem safe_attachHead (remote : RemoteHead Id) (s : LocalStore Id)
    (herror : ∀ s e, post s (.error e)) (hpost : ∀ s, s.HasTree remote.tree → post s (.ok ())) :
    Safe post (attachHead remote) s := by
  unfold attachHead
  apply Process.keeps_bind
  apply (safe_checkAttach s).imp
  intro s' result hresult
  cases result with
  | error e => exact herror s' e
  | ok checked =>
      obtain ⟨hmem, hfree⟩ := hresult checked rfl
      exact safe_advanceTo hmem hfree herror hpost

theorem safe_attach (attachment : Attachment Id) (s : LocalStore Id) :
    Safe (fun _ _ => True) (attach attachment) s := by
  unfold attach
  apply Process.keeps_bind
  apply (safe_checkAttach s).imp
  intro s₁ result _
  cases result with
  | error e => exact trivial
  | ok checked =>
      apply Process.keeps_bind
      apply safe_attachHead
      · exact fun _ _ => trivial
      · intro s₂ htree
        apply Process.keeps_transact Attaches.refl
        · exact fun _ _ _ _ _ => trivial
        · rintro s₃ _ _ _ hg _ ⟨⟩
          have hkeep : Grown s₃ { s₃ with attachment := some attachment } := ⟨.refl _, fun _ _ => Iff.rfl⟩
          refine ⟨⟨⟨.refl, hkeep, .inl rfl, ?_⟩, .inl rfl⟩, trivial⟩
          rintro _ ⟨⟩
          exact .inr ((htree.grown hg).grown hkeep)

theorem Attaching.safe {p : AttachM Id Unit} (h : Attaching p) (s : LocalStore Id) :
    Safe (fun _ _ => True) p s := by
  cases h with
  | attachHead remote => exact safe_attachHead remote s (fun _ _ => trivial) (fun _ _ => trivial)
  | attach attachment => exact safe_attach attachment s

/-! ### Runs -/

theorem attach_stable : Pool.Stable (@AttachInv Id _ _ _) Grown Attaches Others
    (fun _ (_ : Except (Error Id) Unit) => True) where
  refl := .refl
  trans _ _ _ := .trans
  post _ _ _ _ := id
  env _ _ hinv h :=
    have hm := h.moves hinv.reachable.sound
    ⟨hinv.moves hm, hm.grown⟩
  guar _ _ hinv h := ⟨hinv.moves h.toMoves, h.grown⟩

theorem initial_inv (identity : Id) : AttachInv (initial identity) where
  reachable := ⟨identity, .refl⟩
  below m n v w _ _ _ _ := by
    intro op _
    rfl
  own v hv hzero _ := by
    obtain rfl := List.mem_singleton.mp hv
    exact absurd rfl hzero
  attached _ ha := by cases ha

/-- A pool of attaches, among the publications of others. -/
abbrev AttachPool (Id : Type) [LinearOrder Id] := Pool (AttachStep Id) (LocalStore Id) (Error Id) Unit

def AttachPool.new (identity : Id) : AttachPool Id := ⟨initial identity, []⟩

theorem kept_of_run {identity : Id} {pool : AttachPool Id}
    (h : Pool.Run Others Attaching Undisturbed (AttachPool.new identity) pool) :
    pool.Kept AttachInv Grown Attaches Undisturbed (fun _ _ => True) := by
  refine h.kept attach_stable (fun p s hp _ => hp.safe s) ⟨initial_inv identity, ?_⟩
  intro p hp
  cases hp

/-- In a run whose second reads are undisturbed, an attach appends a version only onto versions of attaches,
and otherwise leaves the World as it is; and the tree that `attach.json` names is that of a version, with
everything below it stored. -/
theorem attach_keeps_history {identity : Id} {pool : AttachPool Id}
    (h : Pool.Run Others Attaching Undisturbed (AttachPool.new identity) pool) :
    (∀ label write next, .step label write next ∈ pool.processes → Undisturbed label pool.state →
      (write pool.state).repository.versions = pool.state.repository.versions ∨
      (∃ v, (write pool.state).repository.versions = pool.state.repository.versions ++ [v]) ∧
        ∀ v ∈ pool.state.repository.versions, v.number ≠ 0 → ∃ remote : RemoteHead Id,
          v.operation = some (attachOperation remote) ∧
          pool.state.repository.publication (attachOperation remote) = .ok none) ∧
    ∀ attachment, pool.state.attachment = some attachment → ∃ v ∈ pool.state.repository.versions,
      v.tree = attachment.head.tree ∧
      (∃ T : Manifest Id, IsTree pool.state.repository.objects.Readable T.flat v.tree) ∧
      pool.state.repository.objects.walkReferences pool.state.repository.objects.length v.tree = .ok () := by
  have hk := kept_of_run h
  constructor
  · intro label write next hm hallowed
    obtain ⟨hguar, _⟩ := hk.step attach_stable hm hallowed
    obtain hsame | ⟨happend, hown⟩ := hguar.appends
    · exact .inl hsame
    · refine .inr ⟨happend, fun v hv hzero => ?_⟩
      obtain ⟨remote, hop, hfree⟩ := hown v hv hzero
      refine ⟨remote, hop, ?_⟩
      unfold Repository.publication
      rw [hfree _ hop]
      rfl
  · intro attachment ha
    obtain ⟨v, hv, htree⟩ := hk.state.attached attachment ha
    obtain ⟨S, hs⟩ := chain_of_inv hk.state
    obtain ⟨n, hn⟩ := List.getElem?_of_mem hv
    have hroot := hs.chain.tree n v hn
    have hwhole := hk.state.reachable.whole.objects
    exact ⟨v, hv, htree, ⟨S n, hroot⟩, hwhole.ordered.walkReferences (hwhole.root_stored hroot)⟩

/-! ### The steps of one attach -/

/-- At World 0 the check passes after one read. -/
theorem attachHead_at_zero (remote : RemoteHead Id) {s : LocalStore Id} {world : WorldVersion Id}
    (hhead : s.repository.headIn = .ok world) (hzero : world.number = 0) :
    ∃ next, attachHead remote = .step .other id next ∧ next s = advanceTo remote world := by
  refine ⟨_, rfl, ?_⟩
  show Process.bind (Process.bind (.done s.repository.headIn) _) _ = _
  rw [hhead]
  show Process.bind (if world.number = 0 then _ else _) _ = _
  rw [if_pos hzero]
  rfl

/-- Another tree is advanced to from the head that is read. -/
theorem advanceTo_again (remote : RemoteHead Id) (checked : WorldVersion Id) {world : WorldVersion Id}
    {s : LocalStore Id} (hhead : s.repository.headIn = .ok world) (hne : world.tree ≠ remote.tree) :
    ∃ next, advanceTo remote checked = .step (.again checked remote) id next ∧ ∃ rest,
      next s = .step .other (Process.written
        (advanced (attachOperation remote) world.number remote.tree)) rest := by
  refine ⟨_, rfl, ?_⟩
  show ∃ rest, Process.bind (.done s.repository.headIn) _ = Process.step _ _ rest
  rw [hhead]
  show ∃ rest, (if world.tree = remote.tree then _ else _) = Process.step _ _ rest
  rw [if_neg hne]
  exact ⟨_, rfl⟩

omit [IdBytes Id] in
theorem written_advanced {op : OperationId} {expected : VersionNumber} {tree : Id} {s : LocalStore Id}
    {outcome : AdvanceOutcome Id} {r : Repository Id}
    (hok : s.repository.advanceToTree op expected tree = .ok (outcome, r)) :
    Process.written (advanced op expected tree) s = s.withRepository r := by
  unfold Process.written advanced
  rw [hok]
  rfl

end commands

/-! ### A disturbed attach -/

section disturbed
variable {starts : AttachM ℕ Unit → Prop} {allowed : AttachStep ℕ → LocalStore ℕ → Prop}

theorem attachOperation_ne (remote : RemoteHead ℕ) : attachOperation remote ≠ ⟨[49]⟩ := by
  intro h
  have hlen := congrArg (fun op => op.text.length) h
  have hprefix : ATTACH_PREFIX.length = 7 := by decide
  simp only [attachOperation, List.length_append, List.length_singleton] at hlen
  omega

/-- Other clients may store a tree at any time. -/
theorem exists_storing (starts : AttachM ℕ Unit → Prop) (allowed : AttachStep ℕ → LocalStore ℕ → Prop)
    {r : Repository ℕ} {S : VersionNumber → Manifest ℕ} (hs : Repository.Sound r S) :
    ∃ r' tree, r'.TreeStored tree ∧ tree ≠ emptyId ∧ r' = { r with objects := r'.objects } ∧
      Repository.Sound r' S ∧ ∀ plans, System.Run ⟨r, plans⟩ ⟨r', plans⟩ ∧
        ∀ ps, Pool.Run Others starts allowed ⟨⟨⟨r, plans⟩, none⟩, ps⟩ ⟨⟨⟨r', plans⟩, none⟩, ps⟩ := by
  obtain ⟨r₁, r₂, blob, tree, hput, ⟨m, hsnapshot⟩, hstored, hne, hsame₁, hsame⟩ := System.exists_stored hs
  have hfirst := (store_sound hs hput).2
  have hversions : r₁.versions = r.versions ∧ r₂.versions = r₁.versions := by
    rw [hsame₁, hsame]
    exact ⟨rfl, rfl⟩
  refine ⟨r₂, tree, hstored, hne, hsame, (putSnapshot_sound hfirst hsnapshot).2, fun plans => ⟨?_, fun ps => ?_⟩⟩
  · exact .tail (.single (.transact (.putBlob hput))) (.transact (.putSnapshot hsnapshot))
  · have hblob : Others ⟨⟨r, plans⟩, none⟩ ⟨⟨r₁, plans⟩, none⟩ := .transact (.putBlob hput) hversions.1
    have htree : Others ⟨⟨r₁, plans⟩, none⟩ ⟨⟨r₂, plans⟩, none⟩ := .transact (.putSnapshot hsnapshot) hversions.2
    exact .tail (.single (.other hblob)) (.other htree)

/-- The steps of an attach from World 0 to the advance, with what others do before the second read. -/
theorem run_attach {remote : RemoteHead ℕ} {s s' : LocalStore ℕ} {first world : WorldVersion ℕ}
    (hstarts : starts (attachHead remote)) (hfirst : s.repository.headIn = .ok first) (hzero : first.number = 0)
    (hothers : ∀ ps, Pool.Run Others starts allowed ⟨s, ps⟩ ⟨s', ps⟩)
    (hhead : s'.repository.headIn = .ok world) (hne : world.tree ≠ remote.tree)
    (hallowed : ∀ s, allowed .other s) (hagain : allowed (.again first remote) s') :
    ∃ rest, Pool.Run Others starts allowed ⟨s, []⟩ ⟨s', [.step .other
      (Process.written (advanced (attachOperation remote) world.number remote.tree)) rest]⟩ := by
  obtain ⟨next, hcommand, hnext⟩ := attachHead_at_zero remote hfirst hzero
  obtain ⟨next', hcommand', rest, hnext'⟩ := advanceTo_again remote first hhead hne
  refine ⟨rest, ?_⟩
  have hstart : Pool.Step Others starts allowed ⟨s, []⟩ ⟨s, [attachHead remote]⟩ := .start hstarts
  have hcheck : Pool.Step Others starts allowed ⟨s, [attachHead remote]⟩ ⟨s, [advanceTo remote first]⟩ := by
    rw [hcommand, ← hnext]
    exact @Pool.Step.run _ _ _ _ Others starts allowed s [] [] .other id next (hallowed s)
  have hread : Pool.Step Others starts allowed ⟨s', [advanceTo remote first]⟩ ⟨s', [.step .other
      (Process.written (advanced (attachOperation remote) world.number remote.tree)) rest]⟩ := by
    rw [hcommand', ← hnext']
    exact @Pool.Step.run _ _ _ _ Others starts allowed s' [] [] (.again first remote) id next' hagain
  exact ((Relation.ReflTransGen.single hstart).tail hcheck).trans ((hothers _).tail hread)

/-- The advance appends a version. -/
theorem exists_appended (remote : RemoteHead ℕ) {s : LocalStore ℕ} {S : VersionNumber → Manifest ℕ}
    {world : WorldVersion ℕ} (hs : Repository.Sound s.repository S)
    (hlast : s.repository.versions.getLast? = some world) (hlt : world.number < MAX_VERSION)
    (hpubs : ∀ op, op ≠ ⟨[49]⟩ → s.repository.publications.get? op = none)
    (hattempts : ∀ op, op ≠ ⟨[49]⟩ → s.repository.attempts.get? op = none)
    (hstored : s.repository.TreeStored remote.tree) :
    ∃ v, (Process.written (advanced (attachOperation remote) world.number remote.tree) s).repository.versions =
      s.repository.versions ++ [v] := by
  have hop := attachOperation_ne remote
  obtain ⟨v, r, hadvance, happend, _⟩ := exists_advanceToTree hs hlast hlt (hpubs _ hop) (hattempts _ hop) hstored
  rw [written_advanced hadvance]
  exact ⟨v, happend⟩

/-- An attach at World 0. -/
theorem attach_keeps_history_at_zero : ∃ (pool : AttachPool ℕ) (write : LocalStore ℕ → LocalStore ℕ),
    (∃ v, (write pool.state).repository.versions = pool.state.repository.versions ++ [v]) ∧
    ((write pool.state).repository.versions = pool.state.repository.versions ∨
      (∃ v, (write pool.state).repository.versions = pool.state.repository.versions ++ [v]) ∧
        ∀ v ∈ pool.state.repository.versions, v.number ≠ 0 → ∃ remote : RemoteHead ℕ,
          v.operation = some (attachOperation remote) ∧
          pool.state.repository.publication (attachOperation remote) = .ok none) := by
  obtain ⟨S, hs⟩ := (System.initial_sound (0 : ℕ)).repository
  -- The tree is stored before the attach starts.
  obtain ⟨r, tree, hstored, hne, hsame, hs', hrun⟩ := exists_storing Attaching Undisturbed hs
  obtain ⟨_, hrun⟩ := hrun []
  have hlast : r.versions.getLast? = some ⟨0, versionId none emptyId SparseChanges.empty, emptyId, none⟩ := by
    rw [hsame]
    rfl
  have hread : r.headIn = .ok ⟨0, versionId none emptyId SparseChanges.empty, emptyId, none⟩ :=
    hs'.chain.headIn_eq_ok.mpr hlast
  have hquiet : Undisturbed (.again ⟨0, versionId none emptyId SparseChanges.empty, emptyId, none⟩ ⟨1, 0, tree⟩)
      (⟨⟨r, []⟩, none⟩ : LocalStore ℕ) := by
    refine .inr (fun v hv hlt => ?_)
    have hv' : v ∈ r.versions := hv
    rw [hsame] at hv'
    obtain rfl := List.mem_singleton.mp hv'
    exact absurd hlt (Nat.lt_irrefl 0)
  obtain ⟨rest, hattach⟩ := run_attach (Attaching.attachHead ⟨1, 0, tree⟩) hread rfl (fun _ => .refl) hread
    hne.symm (fun _ => trivial) hquiet
  have hnone : r.publications = SortedMap.empty ∧ r.attempts = SortedMap.empty := by
    rw [hsame]
    exact ⟨rfl, rfl⟩
  have hroom : 0 < MAX_VERSION := by decide
  have happend := exists_appended ⟨1, 0, tree⟩ (s := ⟨⟨r, []⟩, none⟩) hs' hlast hroom
    (fun op _ => by rw [hnone.1]; rfl) (fun op _ => by rw [hnone.2]; rfl) hstored
  exact ⟨_, _, happend, (attach_keeps_history ((hrun []).trans hattach)).1 _ _ _ List.mem_cons_self trivial⟩

/-- A publication between the check and the second read is buried. -/
theorem attach_buries_publication : ∃ (pool : AttachPool ℕ) (write : LocalStore ℕ → LocalStore ℕ)
    (label : AttachStep ℕ) (next : LocalStore ℕ → AttachM ℕ Unit),
    Pool.Run Others Attaching (fun _ _ => True) (AttachPool.new 0) pool ∧
    .step label write next ∈ pool.processes ∧
    (∃ v, (write pool.state).repository.versions = pool.state.repository.versions ++ [v]) ∧
    ∃ v ∈ pool.state.repository.versions, v.number ≠ 0 ∧ ∃ op receipt, v.operation = some op ∧
      pool.state.repository.publication op = .ok (some receipt) := by
  obtain ⟨head, r₁, plan, version, r₂, hcreated, hreach, hprepare, hcommit, hcommitted⟩ :=
    System.exists_first_publication (0 : ℕ) ⟨[97]⟩ ⟨[49]⟩
  obtain ⟨S₁, hs₁⟩ := hreach.sound.repository
  generalize hcall : (⟨⟨[49]⟩, head, .human⟩ : PublishCall ℕ) = call at hprepare hcommit hcommitted
  have hstep : System.Step ⟨r₁, [(call, plan)]⟩ ⟨r₂, [(call, plan)]⟩ :=
    .commit (List.mem_singleton.mpr rfl) hcommit
  have hplanned : System.Reachable ⟨r₁, [(call, plan)]⟩ := hreach.run (.single (.prepare hprepare))
  have hreach₂ := hplanned.run (.single hstep)
  obtain ⟨S₂, hs₂⟩ := hreach₂.sound.repository
  obtain ⟨r₃, tree, hstored, hne, hsame, hs₃, hrun⟩ := exists_storing Attaching (fun _ _ => True) hs₂
  obtain ⟨hsystem, hrun⟩ := hrun [(call, plan)]
  have htables : r₃.versions = r₂.versions ∧ r₃.publications = r₂.publications ∧ r₃.attempts = r₂.attempts := by
    rw [hsame]
    exact ⟨rfl, rfl, rfl⟩
  -- The publication is version 1.
  obtain ⟨_, _, _, _, hagainst, _⟩ := of_prepareIn hprepare
  have hfirst := hs₁.chain.headIn_eq_ok.mp hagainst
  have hzero : plan.against.number = 0 := by
    rw [hcreated.versions] at hfirst
    rw [← Option.some.inj hfirst]
    rfl
  obtain ⟨blob, hpubs, _⟩ := hcommitted.publications
  cases hcommitted.world with
  | published composition version _ hp =>
      obtain ⟨remote, hremote, htree⟩ : ∃ remote : RemoteHead ℕ, r₃.TreeStored remote.tree ∧
          version.tree ≠ remote.tree := by
        by_cases he : version.tree = emptyId
        · exact ⟨⟨1, 0, tree⟩, hstored, fun h => hne (h.symm.trans he)⟩
        · exact ⟨⟨1, 0, emptyId⟩, treeStored_empty r₃, he⟩
      have hlast : r₃.versions.getLast? = some version := by
        rw [htables.1, hp.versions]
        exact List.getLast?_concat
      have hread : r₃.headIn = .ok version := hs₃.chain.headIn_eq_ok.mpr hlast
      have hop : version.operation = some call.operation := by
        rw [hp.version_eq]
        rfl
      have hnumber : version.number = 1 := by
        rw [hp.version_eq]
        show plan.against.number + 1 = 1
        rw [hzero]
      have hbefore : Pool.Run Others Attaching (fun _ _ => True) (AttachPool.new 0)
          ⟨⟨⟨r₁, [(call, plan)]⟩, none⟩, []⟩ :=
        .tail (.single (.other (.transact (.createLayer hcreated.created) hcreated.versions)))
          (.other (.prepare hprepare))
      have hothers : ∀ ps, Pool.Run Others Attaching (fun _ _ => True) ⟨⟨⟨r₁, [(call, plan)]⟩, none⟩, ps⟩
          ⟨⟨⟨r₃, [(call, plan)]⟩, none⟩, ps⟩ :=
        fun ps => .head (.other (.commit (List.mem_singleton.mpr rfl) hcommit)) (hrun ps)
      obtain ⟨rest, hattach⟩ := run_attach (Attaching.attachHead remote) hagainst hzero hothers hread htree
        (fun _ => trivial) trivial
      have hroom : version.number < MAX_VERSION := by
        rw [hnumber]
        decide
      have happend := exists_appended remote (s := ⟨⟨r₃, [(call, plan)]⟩, none⟩) hs₃ hlast hroom ?_ ?_ hremote
      · refine ⟨_, _, _, _, hbefore.trans hattach, List.mem_cons_self, happend, version, List.mem_of_getLast? hlast,
          by rw [hnumber]; decide, call.operation, ?_⟩
        have hrow : r₃.publications.get? call.operation = some (call.row plan (.published version) blob) := by
          rw [htables.2.1, hpubs, SortedMap.get?_insert, if_pos rfl]
        obtain ⟨receipt, hreceipt, _⟩ := System.Reachable.receipt_stays (hreach₂.run hsystem) hrow
        exact ⟨receipt, hop, hreceipt⟩
      · intro op hne'
        show r₃.publications.get? op = none
        rw [htables.2.1, hpubs, SortedMap.get?_insert, if_neg (by rw [← hcall]; exact Ne.symm hne'),
          hcreated.publications]
        rfl
      · intro op hne'
        show r₃.attempts.get? op = none
        rw [htables.2.2, hp.attempts, SortedMap.get?_insert, if_neg (by rw [← hcall]; exact Ne.symm hne'),
          hcreated.attempts]
        rfl

end disturbed

end LocalStore

end Javelin
