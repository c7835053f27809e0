import Javelin.AttachRuns

/-! # Resuming an interrupted attach

`attach_head` calls that run alone, one after the other, on a store that only attaches advanced; trees are
stored in between (`Resumption`).  A call makes the head hold the reported tree exactly if the head holds it
already, or the operation named after the reported chain is new (`attach_resumes`).  So a chain that is
reported again after another one is refused (`attach_refused_again`). -/

namespace Javelin

open KeyedList Bytes Repository

variable {Id : Type} [LinearOrder Id] [Encoding Id] [IdBytes Id]

namespace LocalStore
variable {s s' : LocalStore Id} {S : VersionNumber → Manifest Id} {world : WorldVersion Id}
  {remote : RemoteHead Id}

/-! ### One call alone -/

/-- The check lets an attach's own World pass if `attach.json` was not written. -/
theorem alone_checkAttach (hs : Repository.Sound s.repository S) (hown : s.Own)
    (hlast : s.repository.versions.getLast? = some world) :
    (world.number = 0 ∨ s.attachment = none → (checkAttach : AttachM Id _).alone s = (.ok world, s)) ∧
    (¬ (world.number = 0 ∨ s.attachment = none) → ∃ e, (checkAttach : AttachM Id _).alone s = (.error e, s)) := by
  have hread : (head .other : AttachM Id _).alone s = (.ok world, s) := by
    show (s.repository.headIn, s) = _
    rw [hs.chain.headIn_eq_ok.mpr hlast]
  unfold checkAttach
  rw [Process.alone_bind_of_ok hread]
  by_cases hzero : world.number = 0
  · rw [if_pos hzero]
    exact ⟨fun _ => rfl, fun h => absurd (.inl hzero) h⟩
  rw [if_neg hzero]
  -- The head is an attach's own, so only `attach.json` decides.
  obtain ⟨remote, hop, hfree⟩ := hown world (List.mem_of_getLast? hlast) hzero
  have hfilter : world.operation.filter (fun operation => ATTACH_PREFIX.isPrefixOf operation.text) =
      some (attachOperation remote) := by
    rw [hop, Option.filter_eq_some_iff]
    exact ⟨rfl, List.isPrefixOf_iff_prefix.mpr (List.prefix_append _ _)⟩
  have hnone : s.repository.publication (attachOperation remote) = .ok none := by
    unfold Repository.publication
    rw [hfree _ hop]
    rfl
  have hinterrupted : (interruptedAttach : AttachM Id _).alone s = (.ok (s.attachment.isNone, world), s) := by
    unfold interruptedAttach
    rw [Process.alone_bind_of_ok hread, hfilter]
    dsimp only
    have hattachment : (attachmentOf : AttachM Id _).alone s = (.ok s.attachment, s) := rfl
    rw [Process.alone_bind_of_ok hattachment]
    cases s.attachment with
    | some a => rfl
    | none =>
        have hpublication : (publication (attachOperation remote) : AttachM Id _).alone s = (.ok none, s) := by
          show (s.repository.publication (attachOperation remote), s) = _
          rw [hnone]
        rw [if_neg (by simp), Process.alone_bind_of_ok hpublication]
        rfl
  rw [Process.alone_bind_of_ok hinterrupted]
  cases hattached : s.attachment with
  | none => exact ⟨fun _ => rfl, fun h => absurd (.inr rfl) h⟩
  | some a => exact ⟨fun h => absurd h (by simp [hzero]), fun _ => ⟨_, rfl⟩⟩

/-- The rest of a call that runs alone. -/
theorem alone_advanceTo (hs : Repository.Sound s.repository S) (hlast : s.repository.versions.getLast? = some world)
    (checked : WorldVersion Id) : (advanceTo remote checked).alone s =
      if world.tree = remote.tree then (.ok (), s)
      else match s.repository.advanceToTree (attachOperation remote) world.number remote.tree with
        | .error e => (.error e, s)
        | .ok (.accepted _, r) => (.ok (), s.withRepository r)
        | .ok (.stale _, r) => (.error (.invalidInput "the local World moved during attach; retry"),
            s.withRepository r) := by
  have hread : (head (.again checked remote) : AttachM Id _).alone s = (.ok world, s) := by
    show (s.repository.headIn, s) = _
    rw [hs.chain.headIn_eq_ok.mpr hlast]
  unfold advanceTo
  rw [Process.alone_bind_of_ok hread]
  by_cases htree : world.tree = remote.tree
  · rw [if_pos htree, if_pos htree]
    rfl
  rw [if_neg htree, if_neg htree, Process.alone_bind]
  unfold advanceToTree
  rw [Process.alone_transact]
  unfold Process.written advanced
  cases hadvance : s.repository.advanceToTree (attachOperation remote) world.number remote.tree with
  | error e => rfl
  | ok p =>
      obtain ⟨outcome, r⟩ := p
      cases outcome with
      | accepted v => rfl
      | stale actual => rfl

/-- A call that runs alone is refused by its check, or is the rest of it. -/
theorem alone_attachHead (remote : RemoteHead Id) (hs : Repository.Sound s.repository S) (hown : s.Own)
    (hlast : s.repository.versions.getLast? = some world) :
    (world.number = 0 ∨ s.attachment = none → (attachHead remote).alone s = (advanceTo remote world).alone s) ∧
    (¬ (world.number = 0 ∨ s.attachment = none) → ∃ e, (attachHead remote).alone s = (.error e, s)) := by
  obtain ⟨hpass, hrefuse⟩ := alone_checkAttach hs hown hlast
  unfold attachHead
  constructor
  · exact fun h => Process.alone_bind_of_ok (hpass h)
  · intro h
    obtain ⟨e, he⟩ := hrefuse h
    exact ⟨e, Process.alone_bind_of_error he⟩

/-- A call may get through: the store takes attaches, and holds the tree or takes the operation. -/
def Resumes (s : LocalStore Id) (remote : RemoteHead Id) : Prop :=
  ∀ world ∈ s.repository.versions.getLast?, (world.number = 0 ∨ s.attachment = none) ∧
    (world.tree = remote.tree ∨ s.repository.publications.get? (attachOperation remote) = none ∧
      s.repository.attempts.get? (attachOperation remote) = none ∧ world.number < MAX_VERSION)

/-- The call returns, adds at most one version, and the head holds the reported tree. -/
def Held (s : LocalStore Id) (remote : RemoteHead Id) : Prop :=
  ∃ s', (attachHead remote).alone s = (.ok (), s') ∧
    (∃ world, s'.repository.versions.getLast? = some world ∧ world.tree = remote.tree) ∧
    s'.repository.versions.length ≤ s.repository.versions.length + 1

theorem held_iff (hs : Repository.Sound s.repository S) (hown : s.Own)
    (hstored : s.repository.TreeStored remote.tree) : s.Held remote ↔ s.Resumes remote := by
  obtain ⟨world, hlast⟩ := hs.chain.exists_head
  obtain ⟨hpass, hrefuse⟩ := alone_attachHead remote hs hown hlast
  constructor
  · rintro ⟨s', hok, ⟨world', hlast', htree⟩, _⟩ w hw
    obtain rfl : world = w := Option.some.inj (hlast.symm.trans hw)
    by_cases hadmits : world.number = 0 ∨ s.attachment = none
    · refine ⟨hadmits, ?_⟩
      by_cases hsame : world.tree = remote.tree
      · exact .inl hsame
      right
      rw [hpass hadmits, alone_advanceTo hs hlast, if_neg hsame] at hok
      cases hadvance : s.repository.advanceToTree (attachOperation remote) world.number remote.tree with
      | error e =>
          rw [hadvance] at hok
          cases hok
      | ok p =>
          obtain ⟨outcome, r⟩ := p
          rw [hadvance] at hok
          cases outcome with
          | stale actual => cases hok
          | accepted v =>
              obtain rfl : s.withRepository r = s' := (Prod.mk.inj hok).2
              -- A repeated operation would leave the head as it was.
              obtain ⟨rfl, _⟩ | ⟨hused, hnew, head, hhead, hadvance'⟩ := of_advanceIn hs.chain hadvance
              · obtain rfl := Option.some.inj (hlast.symm.trans hlast')
                exact absurd htree hsame
              · obtain rfl := Option.some.inj (hlast.symm.trans hhead)
                obtain ⟨_, _, _, _, _, ha⟩ := of_advanceNew hs.chain hlast (by simp) hadvance'
                unfold operationExists at hused
                rw [Option.isSome_eq_false_iff, Option.isNone_iff_eq_none] at hused
                cases ha with
                | accepted _ _ hlt _ => exact ⟨hused, hnew, hlt⟩
    · obtain ⟨e, he⟩ := hrefuse hadmits
      rw [he] at hok
      cases hok
  · intro h
    obtain ⟨hadmits, hcase⟩ := h world hlast
    unfold Held
    rw [hpass hadmits, alone_advanceTo hs hlast]
    by_cases hsame : world.tree = remote.tree
    · rw [if_pos hsame]
      exact ⟨s, rfl, ⟨world, hlast, hsame⟩, by omega⟩
    · obtain ⟨hused, hnew, hlt⟩ := hcase.resolve_left hsame
      obtain ⟨v, r, hadvance, happend, htree, _⟩ := exists_advanceToTree hs hlast hlt hused hnew hstored
      rw [if_neg hsame, hadvance]
      refine ⟨s.withRepository r, rfl, ⟨v, ?_, htree⟩, ?_⟩
      · show r.versions.getLast? = some v
        rw [happend]
        exact List.getLast?_concat
      · show r.versions.length ≤ _
        rw [happend, List.length_append]
        exact le_rfl

/-! ### Sequences of calls -/

/-- One step: an object is stored, or a call runs alone whose tree is stored. -/
inductive Resumption : LocalStore Id → LocalStore Id → Prop
  | putBlob {r r' plans attachment bytes id} : r.putBlob bytes = .ok (id, r') →
      Resumption ⟨⟨r, plans⟩, attachment⟩ ⟨⟨r', plans⟩, attachment⟩
  | putTree {r r' plans attachment chunk id} : r.putTree chunk = .ok (id, r') →
      Resumption ⟨⟨r, plans⟩, attachment⟩ ⟨⟨r', plans⟩, attachment⟩
  | attach {s : LocalStore Id} (remote : RemoteHead Id) : s.repository.TreeStored remote.tree → Resumption s ((attachHead remote).alone s).2

/-- What the steps keep. -/
structure Resumable (s : LocalStore Id) : Prop where
  reachable : System.Reachable s.system
  own : s.Own

theorem Resumable.quiet {r r' : Repository Id} {plans : List (PublishCall Id × Plan Id)}
    {attachment : Option (Attachment Id)} (h : Resumable ⟨⟨r, plans⟩, attachment⟩) (ht : Transaction r r')
    (hversions : r'.versions = r.versions) : Resumable ⟨⟨r', plans⟩, attachment⟩ := by
  obtain ⟨S, hs⟩ := h.reachable.sound.repository
  have hpubs := publications_of_transaction ht hs
  refine ⟨h.reachable.run (.single (.transact ht)), ?_⟩
  intro v hv hzero
  obtain ⟨remote, hop, hfree⟩ := h.own v (hversions ▸ hv) hzero
  refine ⟨remote, hop, fun op hop' => ?_⟩
  show r'.publications.get? op = none
  rw [hpubs]
  exact hfree op hop'

theorem Resumable.advanced (h : s.Resumable) {number : VersionNumber} {outcome : AdvanceOutcome Id}
    {r : Repository Id} (hadvance : s.repository.advanceToTree (attachOperation remote) number remote.tree =
      .ok (outcome, r)) : (s.withRepository r).Resumable := by
  obtain ⟨S, hs⟩ := h.reachable.sound.repository
  have ht : Transaction s.repository r := .advanceToTree hadvance
  obtain ⟨hsame, _⟩ | ⟨_, v, _, _, happend, hop, _, hnone⟩ := of_advanceToTree hs.chain hadvance
  · exact h.quiet ht hsame
  refine ⟨h.reachable.run (.single (.transact ht)), ?_⟩
  have hpubs := publications_of_transaction ht hs
  intro w hw hzero
  have hw' : w ∈ s.repository.versions ++ [v] := happend ▸ hw
  obtain hold | rfl := (List.mem_append.mp hw').imp id List.mem_singleton.mp
  · obtain ⟨remote', hop', hfree⟩ := h.own w hold hzero
    refine ⟨remote', hop', fun op ho => ?_⟩
    show r.publications.get? op = none
    rw [hpubs]
    exact hfree op ho
  · refine ⟨remote, hop, fun op ho => ?_⟩
    show r.publications.get? op = none
    rw [hpubs, ← Option.some.inj (hop.symm.trans ho)]
    exact hnone

omit [IdBytes Id] in
theorem versions_of_store {r r' : Repository Id} {object : Object Id} {id : Id}
    (hok : r.store object = .ok (id, r')) : r'.versions = r.versions := by
  unfold store at hok
  obtain ⟨⟨_, objects⟩, _, hpure⟩ := except_bind_eq_ok.mp hok
  obtain ⟨_, rfl⟩ := Prod.mk.inj (Except.ok.inj hpure)
  rfl

theorem Resumption.resumable (h : Resumption s s') (hr : s.Resumable) : s'.Resumable := by
  cases h with
  | putBlob hok => exact hr.quiet (.putBlob hok) (versions_of_store hok)
  | putTree hok =>
      obtain ⟨_, _, h₁⟩ := except_bind_eq_ok.mp hok
      obtain ⟨_, _, hstore⟩ := except_bind_eq_ok.mp h₁
      exact hr.quiet (.putTree hok) (versions_of_store hstore)
  | attach remote hstored =>
      obtain ⟨S, hs⟩ := hr.reachable.sound.repository
      obtain ⟨world, hlast⟩ := hs.chain.exists_head
      obtain ⟨hpass, hrefuse⟩ := alone_attachHead remote hs hr.own hlast
      by_cases hadmits : world.number = 0 ∨ s.attachment = none
      · rw [hpass hadmits, alone_advanceTo hs hlast]
        by_cases hsame : world.tree = remote.tree
        · rw [if_pos hsame]
          exact hr
        rw [if_neg hsame]
        cases hadvance : s.repository.advanceToTree (attachOperation remote) world.number remote.tree with
        | error e => exact hr
        | ok p =>
            obtain ⟨outcome, r⟩ := p
            cases outcome with
            | accepted v => exact hr.advanced hadvance
            | stale actual => exact hr.advanced hadvance
      · obtain ⟨e, he⟩ := hrefuse hadmits
        rw [he]
        exact hr

/-- A sequence of calls, from a store that is at World 0 or that only attaches advanced: each call makes the
head hold the reported tree exactly if the head holds it already or the operation is new. -/
theorem attach_resumes (hreach : System.Reachable s.system) (hown : s.Own)
    (hrun : Relation.ReflTransGen Resumption s s') (hstored : s'.repository.TreeStored remote.tree) :
    s'.Held remote ↔ s'.Resumes remote := by
  have hr : s'.Resumable := by
    clear hstored
    induction hrun with
    | refl => exact ⟨hreach, hown⟩
    | tail _ hstep ih => exact hstep.resumable ih
  obtain ⟨S, hs⟩ := hr.reachable.sound.repository
  exact held_iff hs hr.own hstored

/-! ### A chain that is reported again -/

/-- A call that advances, with what it records. -/
theorem exists_advanced (remote : RemoteHead Id) {r : Repository Id} (h : Resumable ⟨⟨r, []⟩, none⟩)
    (hlast : r.versions.getLast? = some world) (hlt : world.number < MAX_VERSION) (hne : world.tree ≠ remote.tree)
    (hused : r.publications.get? (attachOperation remote) = none)
    (hnew : r.attempts.get? (attachOperation remote) = none) (hstored : r.TreeStored remote.tree) : ∃ v r',
      (attachHead remote).alone ⟨⟨r, []⟩, none⟩ = (.ok (), ⟨⟨r', []⟩, none⟩) ∧ Resumable ⟨⟨r', []⟩, none⟩ ∧
      r'.versions.getLast? = some v ∧ v.number = world.number + 1 ∧ v.tree = remote.tree ∧
      r'.attempts = r.attempts.insert (attachOperation remote)
        ⟨world.number, some remote.tree, true, world.number + 1⟩ ∧
      r'.publications = r.publications ∧ r.objects.Extends r'.objects := by
  obtain ⟨S, hs⟩ : ∃ S, Repository.Sound r S := h.reachable.sound.repository
  obtain ⟨v, r', hadvance, happend, htree, hattempts, hpubs⟩ := exists_advanceToTree hs hlast hlt hused hnew hstored
  have hr' : Resumable ⟨⟨r', []⟩, none⟩ := h.advanced hadvance
  obtain ⟨S', hs'⟩ : ∃ S', Repository.Sound r' S' := hr'.reachable.sound.repository
  have hlast' : r'.versions.getLast? = some v := by
    rw [happend]
    exact List.getLast?_concat
  refine ⟨v, r', ?_, hr', hlast', ?_, htree, hattempts, hpubs, ?_⟩
  · rw [(alone_attachHead remote hs h.own hlast).1 (.inr rfl), alone_advanceTo hs hlast, if_neg hne]
    rw [hadvance]
    rfl
  · have hlen := (hs'.chain.getElem?_of_head hlast').2
    rw [happend, List.length_append, (hs.chain.getElem?_of_head hlast).2] at hlen
    exact (Nat.succ.inj hlen).symm
  · exact (System.sound_of_transaction (.advanceToTree hadvance) hs).1.objects

omit [IdBytes Id] in
/-- An operation that was recorded for another expected version is refused. -/
theorem advanceToTree_reused {r : Repository Id} (hs : Repository.Sound r S) {op : OperationId} {a : Attempt Id}
    {expected : VersionNumber} {tree : Id} (hused : r.publications.get? op = none)
    (hattempt : r.attempts.get? op = some a) (hne : a.expected ≠ expected) :
    r.advanceToTree op expected tree = .error (.operationIdReused op) := by
  obtain ⟨world, hlast⟩ := hs.chain.exists_head
  unfold Repository.advanceToTree advanceIn
  rw [except_bind_of_ok (hs.chain.headIn_eq_ok.mpr hlast), except_bind_of_ok ((refuse_eq_ok (u := ())).mpr ?_), hattempt]
  · show (refuse (a.expected ≠ expected ∨ a.tree ≠ some tree) _ >>= _) = _
    unfold refuse
    rw [if_pos (Or.inl hne)]
    rfl
  · unfold operationExists
    rw [hused]
    simp

section again

/-- A new store with a tree other than the empty one. -/
theorem exists_new : ∃ (r : Repository ℕ) (tree : ℕ) (S : VersionNumber → Manifest ℕ),
    System.Reachable (⟨r, []⟩ : System ℕ) ∧ Own (⟨⟨r, []⟩, none⟩ : LocalStore ℕ) ∧ Repository.Sound r S ∧
    r.versions.getLast? = some ⟨0, versionId none emptyId SparseChanges.empty, emptyId, none⟩ ∧
    r.publications = SortedMap.empty ∧ r.attempts = SortedMap.empty ∧ r.TreeStored tree ∧ tree ≠ emptyId := by
  obtain ⟨S, hs⟩ := (System.initial_sound (0 : ℕ)).repository
  obtain ⟨r, tree, hstored, hne, hsame, hs', hrun⟩ := exists_storing Attaching Undisturbed hs
  have htables : r.versions = (Repository.initial (0 : ℕ)).versions ∧ r.publications = SortedMap.empty ∧
      r.attempts = SortedMap.empty := by
    rw [hsame]
    exact ⟨rfl, rfl, rfl⟩
  refine ⟨r, tree, S, ⟨0, (hrun []).1⟩, ?_, hs', by rw [htables.1]; rfl, htables.2.1, htables.2.2, hstored, hne⟩
  intro v hv hzero
  have hv' : v ∈ (Repository.initial (0 : ℕ)).versions := htables.1 ▸ hv
  obtain rfl := List.mem_singleton.mp hv'
  exact absurd rfl hzero

theorem attach_resumes_at_zero : ∃ (s : LocalStore ℕ) (remote : RemoteHead ℕ), s.attachment = none ∧
    (∀ world ∈ s.repository.versions.getLast?, world.tree ≠ remote.tree) ∧ s.Held remote := by
  obtain ⟨r, tree, S, hreach, hown, hs, hlast, hpubs, hattempts, hstored, hne⟩ := exists_new
  have hresumes : (⟨⟨r, []⟩, none⟩ : LocalStore ℕ).Resumes ⟨1, 0, tree⟩ := by
    intro world hworld
    obtain rfl := Option.some.inj (hlast.symm.trans hworld)
    refine ⟨.inl rfl, .inr ⟨?_, ?_, by decide⟩⟩
    · show r.publications.get? _ = none
      rw [hpubs]
      rfl
    · show r.attempts.get? _ = none
      rw [hattempts]
      rfl
  refine ⟨⟨⟨r, []⟩, none⟩, ⟨1, 0, tree⟩, rfl, ?_, (attach_resumes hreach hown .refl hstored).mpr hresumes⟩
  intro world hworld
  obtain rfl := Option.some.inj (hlast.symm.trans hworld)
  exact hne.symm

/-- Reported after another chain, a chain is refused, though its tree is stored. -/
theorem attach_refused_again : ∃ (s₀ s₁ s₂ : LocalStore ℕ) (first second : RemoteHead ℕ) (e : Error ℕ),
    System.Reachable s₀.system ∧ s₀.attachment = none ∧ s₀.repository.versions.length = 1 ∧
    s₀.repository.TreeStored first.tree ∧ s₀.repository.TreeStored second.tree ∧
    (attachHead first).alone s₀ = (.ok (), s₁) ∧ (attachHead second).alone s₁ = (.ok (), s₂) ∧
    s₂.repository.TreeStored first.tree ∧ (attachHead first).alone s₂ = (.error e, s₂) ∧
    e = .operationIdReused (attachOperation first) := by
  obtain ⟨r, tree, S, hreach, hown, hs, hlast, hpubs, hattempts, hstored, hne⟩ := exists_new
  have hops : attachOperation (⟨1, 0, tree⟩ : RemoteHead ℕ) ≠ attachOperation (⟨2, 1, emptyId⟩ : RemoteHead ℕ) := by
    intro h
    have htext := List.append_cancel_left (congrArg OperationId.text h)
    cases idText_injective htext
  -- The tree, then the empty one.
  obtain ⟨v, r₁, hfirst, hr₁, hlast₁, hnumber₁, htree₁, hattempts₁, hpubs₁, hext₁⟩ :=
    exists_advanced ⟨1, 0, tree⟩ ⟨hreach, hown⟩ hlast (by decide) hne.symm (by rw [hpubs]; rfl)
      (by rw [hattempts]; rfl) hstored
  have hfresh : r₁.attempts.get? (attachOperation ⟨2, 1, emptyId⟩) = none := by
    rw [hattempts₁, SortedMap.get?_insert, if_neg hops, hattempts]
    rfl
  obtain ⟨w, r₂, hsecond, hr₂, hlast₂, hnumber₂, htree₂, hattempts₂, hpubs₂, hext₂⟩ :=
    exists_advanced ⟨2, 1, emptyId⟩ hr₁ hlast₁ (by rw [hnumber₁]; decide) (fun h => hne (htree₁.symm.trans h))
      (by rw [hpubs₁, hpubs]; rfl) hfresh (treeStored_empty r₁)
  obtain ⟨S₂, hs₂⟩ : ∃ S₂, Repository.Sound r₂ S₂ := hr₂.reachable.sound.repository
  -- The first operation is recorded for World 0.
  have hattempt : r₂.attempts.get? (attachOperation ⟨1, 0, tree⟩) = some ⟨0, some tree, true, 1⟩ := by
    rw [hattempts₂, SortedMap.get?_insert, if_neg (Ne.symm hops), hattempts₁, SortedMap.get?_insert, if_pos rfl]
  have hused : r₂.publications.get? (attachOperation (⟨1, 0, tree⟩ : RemoteHead ℕ)) = none := by
    rw [hpubs₂, hpubs₁, hpubs]
    rfl
  have hmoved : (0 : ℕ) ≠ w.number := by
    rw [hnumber₂]
    exact (Nat.succ_ne_zero _).symm
  have hrefused : r₂.advanceToTree (attachOperation ⟨1, 0, tree⟩) w.number tree =
      .error (.operationIdReused (attachOperation ⟨1, 0, tree⟩)) := advanceToTree_reused hs₂ hused hattempt hmoved
  refine ⟨⟨⟨r, []⟩, none⟩, ⟨⟨r₁, []⟩, none⟩, ⟨⟨r₂, []⟩, none⟩, ⟨1, 0, tree⟩, ⟨2, 1, emptyId⟩, _, hreach, rfl,
    (hs.chain.getElem?_of_head hlast).2, hstored, treeStored_empty r, hfirst, hsecond,
    (hstored.extends hext₁).extends hext₂, ?_, rfl⟩
  rw [(alone_attachHead ⟨1, 0, tree⟩ hs₂ hr₂.own hlast₂).1 (.inr rfl), alone_advanceTo hs₂ hlast₂,
    if_neg (fun h => hne (h.symm.trans htree₂))]
  dsimp only
  rw [hrefused]

end again

end LocalStore

end Javelin
