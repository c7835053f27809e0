import Javelin.Commits
import Mathlib.Logic.Relation

/-! # Runs

A system is a repository with the publications in flight.  Its steps are the write transactions of
any client, in any order, the preparation of a publication and the transaction that carries out one
prepared before.  Operations that fail, or only read, change nothing and are no steps.

Every reachable repository is sound (`Reachable.sound`) and only grows (`Run.later`). -/

namespace Javelin

open KeyedList

variable {Id : Type} [LinearOrder Id] [Encoding Id]

namespace Repository
variable {r r' : Repository Id} {S : VersionNumber → Manifest Id}

/-! ### Storing objects -/

theorem store_sound (hs : Sound r S) {object : Object Id} {id : Id}
    (hok : r.store object = .ok (id, r')) : Later r r' ∧ Sound r' S := by
  unfold store at hok
  obtain ⟨⟨_, objects⟩, hinsert, hpure⟩ := except_bind_eq_ok.mp hok
  obtain ⟨_, rfl⟩ := Prod.mk.inj (Except.ok.inj hpure)
  exact hs.objects (Objects.extends_of_insert hinsert) (hs.chain.honest.of_insert hinsert)

theorem putManifest_sound (hs : Sound r S) {manifest : Manifest Id} {id : Id}
    (hok : r.putManifest manifest = .ok (id, r')) : Later r r' ∧ Sound r' S := by
  unfold putManifest at hok
  obtain ⟨_, _, hstore⟩ := except_bind_eq_ok.mp hok
  exact store_sound hs hstore

theorem putTree_sound (hs : Sound r S) {chunk : Chunk Id} {id : Id}
    (hok : r.putTree chunk = .ok (id, r')) : Later r r' ∧ Sound r' S := by
  unfold putTree at hok
  obtain ⟨_, _, h₁⟩ := except_bind_eq_ok.mp hok
  obtain ⟨_, _, hstore⟩ := except_bind_eq_ok.mp h₁
  exact store_sound hs hstore

/-- Building a tree only stores its chunks. -/
theorem build_sound (hs : Sound r S) {manifest : Manifest Id} {root : Id} {t : SqlTrees Id}
    (hok : Trees.build manifest (r.objects.trees .write) = .ok (root, t)) :
    Later r { r with objects := t.store.objects } ∧ Sound { r with objects := t.store.objects } S ∧
      IsTree t.store.objects.Readable manifest.flat root := by
  obtain ⟨hstep, hroot⟩ := (hs.chain.honest.open_write.post_build manifest).of_ok hok
  have hw := hstep.wrote
  obtain ⟨hl, hs'⟩ := hs.objects hw.grows.keeps (hw.grows.honest hs.chain.honest)
  exact ⟨hl, hs', hw.isTree hroot⟩

theorem putSnapshot_sound (hs : Sound r S) {manifest : Manifest Id} {id : Id}
    (hok : r.putSnapshot manifest = .ok (id, r')) : Later r r' ∧ Sound r' S := by
  unfold putSnapshot at hok
  obtain ⟨_, _, h₁⟩ := except_bind_eq_ok.mp hok
  obtain ⟨⟨root, t⟩, hbuild, hpure⟩ := except_bind_eq_ok.mp h₁
  obtain ⟨_, rfl⟩ := Prod.mk.inj (Except.ok.inj hpure)
  obtain ⟨hl, hs', _⟩ := build_sound hs hbuild
  exact ⟨hl, hs'⟩

/-! ### Advancing the World -/

/-- A recorded World attempt keeps a repository sound. -/
theorem Advanced.sound (hs : Sound r S) {head : WorldVersion Id} {op : OperationId}
    {expected : VersionNumber} {root : Id} {objects : Objects Id} {T : Manifest Id}
    {outcome : AdvanceOutcome Id} (hhead : r.versions.getLast? = some head)
    (hused : r.operationExists op = false) (hnew : r.attempts.get? op = none)
    (hgrows : r.objects.Grows objects) (hroot : IsTree objects.Readable T.flat root)
    (ha : Advanced r S head op expected root objects T outcome r') :
    Later r r' ∧ ∃ S', Sound r' S' := by
  obtain ⟨S', hc', _⟩ := ha.chain hs.chain hhead hnew hgrows hroot
  obtain ⟨_, hlen⟩ := hs.chain.getElem?_of_head hhead
  have hunused : ∀ op' row, r.publications.get? op' = some row → op ≠ op' := by
    rintro op' row hrow rfl
    unfold operationExists at hused
    rw [hrow] at hused
    cases hused
  have hattempts : ∀ (a : Attempt Id) op' b, r.attempts.get? op' = some b →
      (r.attempts.insert op a).get? op' = some b := by
    intro a op' b hop
    rw [SortedMap.get?_insert, if_neg]
    · exact hop
    · rintro rfl
      rw [hnew] at hop
      cases hop
  have hunowned : ∀ (a : Attempt Id) op' row, r.publications.get? op' = some row →
      r.attempts.get? op' = none → (r.attempts.insert op a).get? op' = none := by
    intro a op' row hrow hnone
    rw [SortedMap.get?_insert, if_neg (hunused op' row hrow)]
    exact hnone
  have hl : Later r r' := by
    cases ha with
    | stale hlt =>
        exact ⟨rfl, hgrows.keeps, fun _ _ hv => hv, fun _ _ => rfl, hattempts _, fun _ _ _ he => he,
          fun _ _ h => h, fun _ _ _ => rfl, fun _ _ h => h, fun _ _ h _ => Or.inl h,
          fun _ _ _ _ => rfl, hunowned _⟩
    | accepted c he hlt hc =>
        refine ⟨rfl, hgrows.keeps, ?_, ?_, hattempts _, fun _ _ _ he => he, fun _ _ h => h,
          fun _ _ _ => rfl, fun _ _ h => h, fun _ _ h _ => Or.inl h, fun _ _ _ _ => rfl, hunowned _⟩
        · intro n v hv
          obtain ⟨hn, _⟩ := List.getElem?_eq_some_iff.mp hv
          show (r.versions ++ [_])[n]? = some v
          rwa [List.getElem?_append_left hn]
        · intro n hn
          rw [hlen] at hn
          show (r.changes.insert (head.number + 1) c.entries).get? n = r.changes.get? n
          rw [SortedMap.get?_insert, if_neg]
          exact fun he => absurd hn (he ▸ Nat.lt_irrefl _)
  refine ⟨hl, S', ?_⟩
  cases ha with
  | stale hlt =>
      exact hs.later hl hc' hs.bounded (fun _ => Or.inl rfl) (fun _ _ h => Or.inl h)
        (fun _ _ h => Or.inl h) (fun _ _ h => Or.inl h) hs.once
  | accepted c he hlt hc =>
      refine hs.later hl hc' ?_ (fun _ => Or.inl rfl) (fun _ _ h => Or.inl h)
        (fun _ _ h => Or.inl h) (fun _ _ h => Or.inl h) hs.once
      show (r.versions ++ [_]).length ≤ _
      rw [List.length_append, List.length_singleton, hlen]
      exact Nat.add_le_add_right hlt 1

theorem advanceIn_sound (hs : Sound r S) {op : OperationId} {expected : VersionNumber} {root : Id}
    {received : Bool} {outcome : AdvanceOutcome Id}
    (hbuilt : received = false → ∃ T : Manifest Id, IsTree r.objects.Readable T.flat root)
    (hok : r.advanceIn op expected root received = .ok (outcome, r')) :
    Later r r' ∧ ∃ S', Sound r' S' := by
  rcases of_advanceIn hs.chain hok with ⟨rfl, _⟩ | ⟨hused, hnew, head, hhead, hadvance⟩
  · exact ⟨.refl _, S, hs⟩
  · obtain ⟨objects, T, hgrows, hroot, _, ha⟩ := of_advanceNew hs.chain hhead hbuilt hadvance
    exact ha.sound hs hhead hused hnew hgrows hroot

theorem compareAndAdvance_sound (hs : Sound r S) {op : OperationId} {expected : VersionNumber}
    {manifest : Id} {outcome : AdvanceOutcome Id}
    (hok : r.compareAndAdvance op expected manifest = .ok (outcome, r')) :
    Later r r' ∧ ∃ S', Sound r' S' := by
  unfold compareAndAdvance at hok
  obtain ⟨_, _, h₁⟩ := except_bind_eq_ok.mp hok
  obtain ⟨candidate, _, h₂⟩ := except_bind_eq_ok.mp h₁
  obtain ⟨⟨root, t⟩, hbuild, h₃⟩ := except_bind_eq_ok.mp h₂
  obtain ⟨hl, hs', hroot⟩ := build_sound hs hbuild
  obtain ⟨hl', hs''⟩ := advanceIn_sound hs' (fun _ => ⟨candidate, hroot⟩) h₃
  exact ⟨hl.trans hl', hs''⟩

end Repository

/-! ### Steps -/

open Repository

/-- One committed write transaction other than that of a publication. -/
inductive Transaction (r r' : Repository Id) : Prop
  | putBlob {bytes id} : r.putBlob bytes = .ok (id, r') → Transaction r r'
  | putManifest {manifest id} : r.putManifest manifest = .ok (id, r') → Transaction r r'
  | putSnapshot {manifest id} : r.putSnapshot manifest = .ok (id, r') → Transaction r r'
  | putTree {chunk id} : r.putTree chunk = .ok (id, r') → Transaction r r'
  | compareAndAdvance {op expected manifest outcome} :
      r.compareAndAdvance op expected manifest = .ok (outcome, r') → Transaction r r'
  | advanceToTree {op expected tree outcome} :
      r.advanceToTree op expected tree = .ok (outcome, r') → Transaction r r'
  | createLayer {layer base head} : r.createLayer layer base = .ok (head, r') → Transaction r r'
  | cloneLayer {layer checkpoint head} : r.cloneLayer layer checkpoint = .ok (head, r') → Transaction r r'
  | captureLayer {op expected changes provenance outcome} :
      r.captureLayer op expected changes provenance = .ok (outcome, r') → Transaction r r'
  | discardLayer {op expected outcome} : r.discardLayer op expected = .ok (outcome, r') → Transaction r r'
  | commitStack {op expected source changes resolution provenance outcome} :
      r.commitStack op expected source changes resolution provenance = .ok (outcome, r') →
      Transaction r r'

/-- A repository and the publications that are prepared but not carried out. -/
structure System (Id : Type) where
  repository : Repository Id
  plans : List (PublishCall Id × Plan Id)

/-- A system of a new repository. -/
def System.initial (identity : Id) : System Id := ⟨Repository.initial identity, []⟩

namespace System

/-- One step of any client.  A plan may be carried out by its client later, or never. -/
inductive Step : System Id → System Id → Prop
  | transact {r r' plans} : Transaction r r' → Step ⟨r, plans⟩ ⟨r', plans⟩
  | prepare {r plans call plan} : r.prepareIn call = .ok (.advance plan) →
      Step ⟨r, plans⟩ ⟨r, (call, plan) :: plans⟩
  | commit {r r' plans call plan guard receipt} : (call, plan) ∈ plans →
      r.commitIn call plan guard = .ok (some (receipt, r')) → Step ⟨r, plans⟩ ⟨r', plans⟩

/-- Any number of steps. -/
abbrev Run (s s' : System Id) : Prop := Relation.ReflTransGen Step s s'

/-- A state that some run from a new repository ends in. -/
def Reachable (s : System Id) : Prop := ∃ identity, Run (System.initial identity) s

theorem Reachable.run {s s' : System Id} (h : Reachable s) (hr : Run s s') : Reachable s' := by
  obtain ⟨identity, h⟩ := h
  exact ⟨identity, h.trans hr⟩

/-! ### The invariant -/

/-- The repository is sound and every plan in flight was prepared in an earlier sound state. -/
structure Sound (s : System Id) : Prop where
  repository : ∃ S, Repository.Sound s.repository S
  plans : ∀ p ∈ s.plans, Planned s.repository p.1 p.2

theorem sound_of_transaction {r r' : Repository Id} {S : VersionNumber → Manifest Id}
    (h : Transaction r r') (hs : Repository.Sound r S) :
    Later r r' ∧ ∃ S', Repository.Sound r' S' := by
  have hkeep : Later r r' ∧ Repository.Sound r' S → Later r r' ∧ ∃ S', Repository.Sound r' S' :=
    fun h => ⟨h.1, S, h.2⟩
  cases h with
  | putBlob hok => exact hkeep (store_sound hs hok)
  | putManifest hok => exact hkeep (putManifest_sound hs hok)
  | putSnapshot hok => exact hkeep (putSnapshot_sound hs hok)
  | putTree hok => exact hkeep (putTree_sound hs hok)
  | compareAndAdvance hok => exact compareAndAdvance_sound hs hok
  | advanceToTree hok => exact advanceIn_sound hs (by simp) hok
  | createLayer hok => exact hkeep (createLayer_sound hs hok)
  | cloneLayer hok => exact hkeep (cloneLayer_sound hs hok)
  | captureLayer hok => exact hkeep (captureLayer_sound hs hok)
  | discardLayer hok => exact hkeep (discardLayer_sound hs hok)
  | commitStack hok => exact hkeep (commitStack_sound hs hok)

/-- A commit of a plan in flight keeps a repository sound. -/
theorem commitIn_sound {r r' : Repository Id} {S : VersionNumber → Manifest Id} {call : PublishCall Id}
    {plan : Plan Id} {guard : Guard Id} {receipt : PublicationReceipt Id}
    (hs : Repository.Sound r S) (hp : Planned r call plan)
    (hok : r.commitIn call plan guard = .ok (some (receipt, r'))) :
    Later r r' ∧ ∃ S', Repository.Sound r' S' := by
  obtain ⟨hcurrent, outcome, hcommitted, _⟩ := of_commitIn hok
  exact hcommitted.sound (hp.fits hs hcurrent) hs

/-- One step keeps the invariant and leads to a later repository. -/
theorem Step.sound {s s' : System Id} (h : Step s s') (hs : s.Sound) :
    Later s.repository s'.repository ∧ s'.Sound := by
  obtain ⟨⟨S, hrepo⟩, hplans⟩ := hs
  cases h with
  | transact ht =>
      obtain ⟨hl, hs'⟩ := sound_of_transaction ht hrepo
      exact ⟨hl, hs', fun p hp => (hplans p hp).later hl⟩
  | prepare hok =>
      refine ⟨.refl _, ⟨S, hrepo⟩, ?_⟩
      intro p hp
      rcases List.mem_cons.mp hp with rfl | hp
      · exact ⟨_, S, hrepo, .refl _, hok⟩
      · exact hplans p hp
  | commit hm hok =>
      obtain ⟨hl, hs'⟩ := commitIn_sound hrepo (hplans _ hm) hok
      exact ⟨hl, hs', fun p hp => (hplans p hp).later hl⟩

theorem Run.later {s s' : System Id} (h : Run s s') (hs : s.Sound) :
    Later s.repository s'.repository ∧ s'.Sound := by
  induction h with
  | refl => exact ⟨.refl _, hs⟩
  | tail _ hstep ih =>
      obtain ⟨hl, hs₁⟩ := ih
      obtain ⟨hl', hs₂⟩ := hstep.sound hs₁
      exact ⟨hl.trans hl', hs₂⟩

/-- A new repository is sound. -/
theorem initial_sound (identity : Id) : (System.initial identity).Sound where
  repository := by
    have hnone : ∀ layer n, ((Repository.initial identity).events layer).get? n = none := fun _ _ => rfl
    refine ⟨_, Chain.initial identity, ?_, ?_, ?_, ?_, ?_, ?_⟩
    · exact Nat.le_add_left 1 MAX_VERSION
    · intro layer
      refine ⟨?_, ?_, ?_, ?_, ?_, ⟨⟨identity, 0, identity⟩, ?_⟩⟩
      · intro n m e he
        cases he
      · intro e he
        cases he
      · intro n e he
        cases he
      · intro n e e' he
        cases he
      · intro n e he
        cases he
      · intro n e he
        cases he
    · intro op a ha
      cases ha
    · intro op row hrow
      cases hrow
    · intro op row hrow
      cases hrow
    · intro op op' row row' hrow
      cases hrow
  plans p hp := by cases hp

theorem Reachable.sound {s : System Id} (h : Reachable s) : s.Sound := by
  obtain ⟨identity, h⟩ := h
  exact (h.later (initial_sound identity)).2

end System

end Javelin
