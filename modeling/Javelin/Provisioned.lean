import Javelin.Provisioning

/-! # Provisioned once, on one node

`Sound` is the invariant of a site: names and operations are unique, a repository that is ready is held by the
node it was reserved for, and a call in flight has done on its node what its stage says.  `sound` proves it of
every run, with `Grows` for what no step undoes.

Only a create looks at the phase before it calls the node.  A fork that is ready is provisioned and copied again
wherever its retry's control plane points (`fork_sent_elsewhere`); `exactlyOnce` is about the runs in which no
such retry is made. -/

namespace Javelin.Control

open KeyedList Bytes Collaboration Identity

variable {web : WebAuthn} {Key Id : Type}

/-! ### Records -/

/-- Two states of one repository's record. -/
def Alike (r r' : RepositoryRecord) : Prop := r' = { r with phase := r'.phase, epoch := r'.epoch }

theorem Alike.refl (r : RepositoryRecord) : Alike r r := rfl

theorem Alike.trans {r r' r'' : RepositoryRecord} (h : Alike r r') (h' : Alike r' r'') : Alike r r'' := by
  unfold Alike at *
  rw [h', h]

theorem Alike.target {r r' : RepositoryRecord} (h : Alike r r') : r'.target = r.target := by
  rw [h]
  rfl

theorem Alike.fork {r r' : RepositoryRecord} (h : Alike r r') : r'.fork = r.fork := by
  rw [h]

theorem Alike.initialPermissions {r r' : RepositoryRecord} (h : Alike r r') (repository : RepositoryId) :
    initialPermissions repository r' = initialPermissions repository r := by
  rw [h]
  rfl

theorem repository_of_initialPermissions {repository : RepositoryId} {record : RepositoryRecord}
    {permissions : AppliedPermissions} (h : initialPermissions repository record = .ok permissions) :
    permissions.repository = repository ∧ permissions.epoch = 1 := by
  obtain ⟨roles, _, h⟩ := except_bind_eq_ok.mp h
  cases h
  exact ⟨rfl, rfl⟩

/-! ### What a node holds -/

def Copied (node : Node) (id : Str) (record : RepositoryRecord) : Prop :=
  ∀ f, record.fork = some f → ∃ plan, node.copied.get? id = some plan ∧ plan.source.text = f.source ∧
    plan.at = f.number

def Permitted (node : Node) (id : Str) (record : RepositoryRecord) : Prop :=
  ∃ repository permissions, repository.text = id ∧ initialPermissions repository record = .ok permissions ∧
    node.permissions.get? id = some permissions

/-- The node has the repository, its copy if it is a fork, and its initial permissions. -/
structure Holds (node : Node) (id : Str) (record : RepositoryRecord) : Prop where
  provisioned : id ∈ node.provisioned
  copied : Copied node id record
  permitted : Permitted node id record

/-- A node keeps what it has. -/
structure Node.Grows (node node' : Node) : Prop where
  provisioned : ∀ id, id ∈ node.provisioned → id ∈ node'.provisioned
  copied : ∀ id plan, node.copied.get? id = some plan → node'.copied.get? id = some plan
  permissions : ∀ id p, node.permissions.get? id = some p → node'.permissions.get? id = some p

theorem Node.Grows.refl (node : Node) : node.Grows node := ⟨fun _ h => h, fun _ _ h => h, fun _ _ h => h⟩

theorem Copied.mono {node node' : Node} {id : Str} {r r' : RepositoryRecord} (h : Copied node id r)
    (hnode : node.Grows node') (halike : Alike r r') : Copied node' id r' := by
  intro f hf
  obtain ⟨plan, hget, hplan⟩ := h f (halike.fork.symm.trans hf)
  exact ⟨plan, hnode.copied id plan hget, hplan⟩

theorem Permitted.mono {node node' : Node} {id : Str} {r r' : RepositoryRecord} (h : Permitted node id r)
    (hnode : node.Grows node') (halike : Alike r r') : Permitted node' id r' := by
  obtain ⟨repository, permissions, hid, hinitial, hget⟩ := h
  exact ⟨repository, permissions, hid, (halike.initialPermissions repository).trans hinitial,
    hnode.permissions id permissions hget⟩

theorem Holds.mono {node node' : Node} {id : Str} {r r' : RepositoryRecord} (h : Holds node id r)
    (hnode : node.Grows node') (halike : Alike r r') : Holds node' id r' :=
  ⟨hnode.provisioned id h.provisioned, h.copied.mono hnode halike, h.permitted.mono hnode halike⟩

/-! ### What no step undoes -/

/-- Records stay, with the node they were reserved for, ready records stay ready, and nodes keep what they
have. -/
structure Grows (s s' : Site web Id) : Prop where
  record : ∀ id r, s.doc.repositories.get? id = some r → ∃ r', s'.doc.repositories.get? id = some r' ∧ Alike r r' ∧
    (r.phase = .ready → r'.phase = .ready)
  nodes : ∀ target, (s.nodes target).Grows (s'.nodes target)

theorem Grows.refl (s : Site web Id) : Grows s s :=
  ⟨fun _ r h => ⟨r, h, Alike.refl r, id⟩, fun _ => Node.Grows.refl _⟩

theorem Grows.trans {s s' s'' : Site web Id} (h : Grows s s') (h' : Grows s' s'') : Grows s s'' where
  record id r hget := by
    obtain ⟨r', hget', halike, hready⟩ := h.record id r hget
    obtain ⟨r'', hget'', halike', hready'⟩ := h'.record id r' hget'
    exact ⟨r'', hget'', halike.trans halike', fun hr => hready' (hready hr)⟩
  nodes target :=
    { provisioned := fun id hid => (h'.nodes target).provisioned id ((h.nodes target).provisioned id hid)
      copied := fun id plan hget => (h'.nodes target).copied id plan ((h.nodes target).copied id plan hget)
      permissions := fun id p hget => (h'.nodes target).permissions id p ((h.nodes target).permissions id p hget) }

/-! ### The invariant -/

/-- Names and operations are unique. -/
structure Documents (doc : State web) : Prop where
  named : ∀ id r, doc.repositories.get? id = some r → doc.operations.get? r.operation = some id
  known : ∀ op id, doc.operations.get? op = some id → ∃ r, doc.repositories.get? id = some r ∧ r.operation = op
  unique : ∀ id id' r r', doc.repositories.get? id = some r → doc.repositories.get? id' = some r' →
    r.owner = r'.owner → r.name = r'.name → id = id'

/-- What a call in flight has done. -/
structure Going (s : Site web Id) (p : Pending Id) : Prop where
  record : ∃ r, s.doc.repositories.get? p.repository.text = some r ∧ Alike p.record r ∧
    (p.record.phase = .ready → r.phase = .ready)
  place : p.record.phase = .provisioning → p.target = p.record.target
  plan : p.plan.map (fun plan => (⟨plan.source.text, plan.at⟩ : ForkOf)) = p.record.fork
  copy : ∀ plan, p.plan = some plan → plan.target = p.repository
  ready : p.record.phase = .ready → p.plan.isSome = true ∧ (p.stage = .provision ∨ p.stage = .fork)
  provisioned : p.stage ≠ .provision → p.repository.text ∈ (s.nodes p.target).provisioned
  copied : p.stage = .apply ∨ p.stage = .mark → Copied (s.nodes p.target) p.repository.text p.record
  permitted : p.stage = .mark → Permitted (s.nodes p.target) p.repository.text p.record

theorem Going.mono {s s' : Site web Id} {p : Pending Id} (h : Going s p) (hgrows : Grows s s') : Going s' p where
  record := by
    obtain ⟨r, hget, halike, hready⟩ := h.record
    obtain ⟨r', hget', halike', hready'⟩ := hgrows.record _ r hget
    exact ⟨r', hget', halike.trans halike', fun hr => hready' (hready hr)⟩
  place := h.place
  plan := h.plan
  copy := h.copy
  ready := h.ready
  provisioned hstage := (hgrows.nodes _).provisioned _ (h.provisioned hstage)
  copied hstage := (h.copied hstage).mono (hgrows.nodes _) (Alike.refl _)
  permitted hstage := (h.permitted hstage).mono (hgrows.nodes _) (Alike.refl _)

/-- The repository ID an event draws. -/
def Event.drawn : Event web Id → Option Str
  | .create _ _ _ _ draw _ => some (secret.id (text "repo_") draw)
  | .fork _ _ _ _ draw _ _ => some (secret.id (text "repo_") draw)
  | _ => none

structure Sound (l : List (Event web Id)) (s : Site web Id) : Prop where
  documents : Documents s.doc
  drawn : ∀ id r, s.doc.repositories.get? id = some r → id ∈ l.filterMap Event.drawn
  /-- Nodes copy forks from where their records say. -/
  copies : ∀ target id plan, (s.nodes target).copied.get? id = some plan → ∃ r f,
    s.doc.repositories.get? id = some r ∧ r.fork = some f ∧ plan.source.text = f.source ∧ plan.at = f.number
  /-- Nodes hold no permissions but initial ones. -/
  grants : ∀ target id p, (s.nodes target).permissions.get? id = some p → ∃ r repository,
    s.doc.repositories.get? id = some r ∧ repository.text = id ∧ initialPermissions repository r = .ok p
  ready : ∀ id r, s.doc.repositories.get? id = some r → r.phase = .ready → Holds (s.nodes r.target) id r
  going : ∀ p ∈ s.calls, Going s p

variable {s s' : Site web Id} {l : List (Event web Id)} {x : Event web Id}

theorem RepositoryId.eq_of_text {a b : RepositoryId} (h : a.text = b.text) : a = b := by
  cases a
  cases b
  cases h
  rfl

/-- A step that only changes which calls are in flight, what was sent and what was returned. -/
theorem Sound.with_calls (h : Sound l s) (hdoc : s'.doc = s.doc) (hnodes : s'.nodes = s.nodes)
    (hcalls : ∀ p ∈ s'.calls, p ∈ s.calls ∨ Going s p) : Sound l s' := by
  have hgrows : Grows s s' := by
    refine ⟨fun id r hget => ⟨r, by rw [hdoc]; exact hget, Alike.refl r, fun hr => hr⟩, fun target => ?_⟩
    rw [hnodes]
    exact Node.Grows.refl _
  refine ⟨by rw [hdoc]; exact h.documents, by rw [hdoc]; exact h.drawn, ?_, ?_, ?_, ?_⟩
  · rw [hdoc, hnodes]
    exact h.copies
  · rw [hdoc, hnodes]
    exact h.grants
  · rw [hdoc, hnodes]
    exact h.ready
  · intro p hp
    cases hcalls p hp with
    | inl hbefore => exact (h.going p hbefore).mono hgrows
    | inr hgoing => exact hgoing.mono hgrows

/-! ### Updates of the document -/

/-- A step that changes the document alone. -/
theorem Sound.with_doc {doc : State web} (h : Sound l s) (l' : List (Event web Id))
    (hrecord : ∀ id r, s.doc.repositories.get? id = some r → ∃ r', doc.repositories.get? id = some r' ∧ Alike r r' ∧
      (r.phase = .ready → r'.phase = .ready))
    (hdocuments : Documents doc) (hdrawn : ∀ id r, doc.repositories.get? id = some r → id ∈ l'.filterMap Event.drawn)
    (hready : ∀ id r, doc.repositories.get? id = some r → r.phase = .ready → Holds (s.nodes r.target) id r) :
    Sound l' { s with doc := doc } ∧ Grows s { s with doc := doc } := by
  have hgrows : Grows s { s with doc := doc } := ⟨hrecord, fun _ => Node.Grows.refl _⟩
  refine ⟨⟨hdocuments, hdrawn, ?_, ?_, hready, fun p hp => (h.going p hp).mono hgrows⟩, hgrows⟩
  · intro target id plan hget
    obtain ⟨r, f, hr, hf, hplan⟩ := h.copies target id plan hget
    obtain ⟨r', hr', halike, _⟩ := hrecord id r hr
    exact ⟨r', f, hr', halike.fork.trans hf, hplan⟩
  · intro target id p hget
    obtain ⟨r, repository, hr, hid, hp⟩ := h.grants target id p hget
    obtain ⟨r', hr', halike, _⟩ := hrecord id r hr
    exact ⟨r', repository, hr', hid, (halike.initialPermissions repository).trans hp⟩

/-- An update that leaves repositories and operations alone. -/
theorem Sound.with_same_doc {doc : State web} (h : Sound l s) (l' : List (Event web Id))
    (hrepositories : doc.repositories = s.doc.repositories) (hoperations : doc.operations = s.doc.operations)
    (hmore : ∀ id, id ∈ l.filterMap Event.drawn → id ∈ l'.filterMap Event.drawn) :
    Sound l' { s with doc := doc } ∧ Grows s { s with doc := doc } := by
  apply h.with_doc l'
  · rw [hrepositories]
    exact fun id r hget => ⟨r, hget, Alike.refl r, fun hr => hr⟩
  · refine ⟨?_, ?_, ?_⟩
    · rw [hrepositories, hoperations]
      exact h.documents.named
    · rw [hrepositories, hoperations]
      exact h.documents.known
    · rw [hrepositories]
      exact h.documents.unique
  · rw [hrepositories]
    exact fun id r hget => hmore id (h.drawn id r hget)
  · rw [hrepositories]
    exact h.ready

/-- Sign-in calls leave repositories alone. -/
theorem after_repositories (crates : Crates Key) (doc : State web) (x : Input web) :
    (after crates doc x).repositories = doc.repositories ∧ (after crates doc x).operations = doc.operations := by
  cases after_cases crates doc x with
  | inl hkept =>
      rw [hkept]
      exact ⟨rfl, rfl⟩
  | inr hanswered =>
      obtain ⟨answer, _, heffect⟩ := hanswered
      generalize after crates doc x = doc' at heffect
      cases heffect <;> exact ⟨rfl, rfl⟩

section reserved
variable {creator draw id : Str} {request : CreateRequest} {target : NodeTarget} {fork : Option ForkOf}
  {record : RepositoryRecord} {inserted : Bool} {doc : State web}

/-- A reservation, by a bearer that may make it. -/
theorem Sound.reserved (h : Sound l s) (x : Event web Id)
    (hreserve : reserve s.doc creator request target fork draw = .ok ((id, record, inserted), doc))
    (hfresh : secret.id (text "repo_") draw ∉ l.filterMap Event.drawn)
    (hdraw : x.drawn = some (secret.id (text "repo_") draw)) :
    Sound (l ++ [x]) { s with doc := doc } ∧ Grows s { s with doc := doc } ∧
      doc.repositories.get? id = some record ∧ record.fork = fork ∧
      (record.phase = .provisioning → target = record.target) := by
  have hfilter : (l ++ [x]).filterMap Event.drawn = l.filterMap Event.drawn ++ [secret.id (text "repo_") draw] := by
    rw [List.filterMap_append, List.filterMap_cons_some hdraw, List.filterMap_nil]
  cases of_reserve hreserve with
  | inl hfound =>
      obtain ⟨rfl, _, hget, hsame, hplace⟩ := hfound
      obtain ⟨hsound, hgrows⟩ := h.with_same_doc (l ++ [x]) rfl rfl
        (fun id hid => by rw [hfilter]; exact List.mem_append_left _ hid)
      exact ⟨hsound, hgrows, hget, hsame.2.2.2.2.1, fun hphase => (hplace hphase).symm⟩
  | inr hnew =>
      obtain ⟨hnone, hfree, rfl, rfl, rfl⟩ := hnew
      have hold : ∀ id r, s.doc.repositories.get? id = some r → secret.id (text "repo_") draw ≠ id := by
        intro id r hget heq
        exact hfresh (heq ▸ h.drawn id r hget)
      have hcases : ∀ id r, (s.doc.repositories.insert (secret.id (text "repo_") draw)
          (newRecord creator request target fork)).get? id = some r →
          (secret.id (text "repo_") draw = id ∧ r = newRecord creator request target fork) ∨
            s.doc.repositories.get? id = some r := by
        intro id r hget
        rw [SortedMap.get?_insert] at hget
        split at hget
        · rename_i hid
          exact Or.inl ⟨hid, (Option.some.inj hget).symm⟩
        · exact Or.inr hget
      refine ⟨?_, ?_⟩
      · refine (h.with_doc (l ++ [x]) ?_ ⟨?_, ?_, ?_⟩ ?_ ?_).1
        · intro id r hget
          exact ⟨r, by rw [SortedMap.get?_insert, if_neg (hold id r hget)]; exact hget, Alike.refl r, fun hr => hr⟩
        · intro id r hget
          rw [SortedMap.get?_insert]
          cases hcases id r hget with
          | inl hnew =>
              obtain ⟨rfl, rfl⟩ := hnew
              exact if_pos rfl
          | inr hbefore =>
              have hnamed := h.documents.named id r hbefore
              rw [if_neg]
              · exact hnamed
              · intro heq
                rw [← heq, hnone] at hnamed
                cases hnamed
        · intro op id hget
          rw [SortedMap.get?_insert] at hget
          split at hget
          · rename_i hop
            cases hget
            exact ⟨_, by rw [SortedMap.get?_insert, if_pos rfl], hop⟩
          · obtain ⟨r, hr, hop⟩ := h.documents.known op id hget
            exact ⟨r, by rw [SortedMap.get?_insert, if_neg (hold id r hr)]; exact hr, hop⟩
        · intro id id' r r' hget hget' howner hname
          cases hcases id r hget with
          | inl hnew =>
              obtain ⟨rfl, rfl⟩ := hnew
              cases hcases id' r' hget' with
              | inl hnew' => exact hnew'.1
              | inr hbefore' => exact absurd hname.symm (hfree id' r' hbefore' howner.symm)
          | inr hbefore =>
              cases hcases id' r' hget' with
              | inl hnew' =>
                  obtain ⟨rfl, rfl⟩ := hnew'
                  exact absurd hname (hfree id r hbefore howner)
              | inr hbefore' => exact h.documents.unique id id' r r' hbefore hbefore' howner hname
        · intro id r hget
          rw [hfilter, List.mem_append, List.mem_singleton]
          cases hcases id r hget with
          | inl hnew => exact Or.inr hnew.1.symm
          | inr hbefore => exact Or.inl (h.drawn id r hbefore)
        · intro id r hget hphase
          cases hcases id r hget with
          | inl hnew =>
              rw [hnew.2] at hphase
              cases hphase
          | inr hbefore => exact h.ready id r hbefore hphase
      · refine ⟨⟨?_, fun _ => Node.Grows.refl _⟩, by rw [SortedMap.get?_insert, if_pos rfl], rfl, fun _ => rfl⟩
        intro id r hget
        exact ⟨r, by rw [SortedMap.get?_insert, if_neg (hold id r hget)]; exact hget, Alike.refl r, fun hr => hr⟩

end reserved

/-- The mark of a call in flight. -/
theorem Sound.marked {p : Pending Id} {doc : State web} {ready : RepositoryRecord} (h : Sound l s) (hp : Going s p)
    (hstage : p.stage = .mark) (hmark : markReady p.repository.text s.doc = .ok (ready, doc)) :
    Sound l { s with doc := doc } ∧ Grows s { s with doc := doc } := by
  unfold markReady at hmark
  obtain ⟨r, hget, halike, _⟩ := hp.record
  rw [hget] at hmark
  cases hmark
  have hmarked : Alike r { r with phase := .ready, epoch := 1 } := rfl
  have hcases : ∀ id r', (s.doc.repositories.insert p.repository.text { r with phase := .ready, epoch := 1 }).get? id =
      some r' → (p.repository.text = id ∧ r' = { r with phase := .ready, epoch := 1 }) ∨
        s.doc.repositories.get? id = some r' := by
    intro id r' hget'
    rw [SortedMap.get?_insert] at hget'
    split at hget'
    · rename_i hid
      exact Or.inl ⟨hid, (Option.some.inj hget').symm⟩
    · exact Or.inr hget'
  have hold : ∀ id r', (s.doc.repositories.insert p.repository.text { r with phase := .ready, epoch := 1 }).get? id =
      some r' → ∃ r, s.doc.repositories.get? id = some r ∧ Alike r r' := by
    intro id r' hget'
    cases hcases id r' hget' with
    | inl hnew =>
        obtain ⟨rfl, rfl⟩ := hnew
        exact ⟨r, hget, hmarked⟩
    | inr hbefore => exact ⟨r', hbefore, Alike.refl r'⟩
  have hkept : ∀ id r₀, s.doc.repositories.get? id = some r₀ → ∃ r',
      (s.doc.repositories.insert p.repository.text { r with phase := .ready, epoch := 1 }).get? id = some r' ∧
        Alike r₀ r' ∧ (r₀.phase = .ready → r'.phase = .ready) := by
    intro id r' hget'
    by_cases hid : p.repository.text = id
    · subst hid
      rw [hget] at hget'
      cases hget'
      exact ⟨_, by rw [SortedMap.get?_insert, if_pos rfl], hmarked, fun _ => rfl⟩
    · exact ⟨r', by rw [SortedMap.get?_insert, if_neg hid]; exact hget', Alike.refl r', fun hr => hr⟩
  -- only a repository that is not ready is marked, so the call is at the node it was reserved for
  have hplace : p.target = p.record.target := by
    cases hphase : p.record.phase with
    | provisioning => exact hp.place hphase
    | ready =>
        have hearly := (hp.ready hphase).2
        rw [hstage] at hearly
        cases hearly with
        | inl h => cases h
        | inr h => cases h
  have hholds : Holds (s.nodes p.target) p.repository.text p.record :=
    ⟨hp.provisioned (by rw [hstage]; decide), hp.copied (Or.inr hstage), hp.permitted hstage⟩
  refine h.with_doc l hkept ⟨?_, ?_, ?_⟩ ?_ ?_
  · intro id r' hget'
    obtain ⟨r, hr, hlike⟩ := hold id r' hget'
    rw [hlike]
    exact h.documents.named id r hr
  · intro op id hop
    obtain ⟨r, hr, hop⟩ := h.documents.known op id hop
    obtain ⟨r', hr', hlike, _⟩ := hkept id r hr
    exact ⟨r', hr', by rw [hlike]; exact hop⟩
  · intro id id' r₁ r₂ hget₁ hget₂ howner hname
    obtain ⟨r₁', hr₁, hlike₁⟩ := hold id r₁ hget₁
    obtain ⟨r₂', hr₂, hlike₂⟩ := hold id' r₂ hget₂
    rw [hlike₁, hlike₂] at howner hname
    exact h.documents.unique id id' r₁' r₂' hr₁ hr₂ howner hname
  · intro id r' hget'
    obtain ⟨r, hr, _⟩ := hold id r' hget'
    exact h.drawn id r hr
  · intro id r' hget' hphase
    cases hcases id r' hget' with
    | inl hnew =>
        obtain ⟨rfl, rfl⟩ := hnew
        rw [(halike.trans hmarked).target, ← hplace]
        exact hholds.mono (Node.Grows.refl _) (halike.trans hmarked)
    | inr hbefore => exact h.ready id r' hbefore hphase

/-! ### Node calls -/

/-- A step that changes one node alone. -/
theorem Sound.with_node (h : Sound l s) (target : NodeTarget) (node : Node) (hnode : (s.nodes target).Grows node)
    (hcopies : ∀ id plan, node.copied.get? id = some plan → (s.nodes target).copied.get? id = some plan ∨
      ∃ r f, s.doc.repositories.get? id = some r ∧ r.fork = some f ∧ plan.source.text = f.source ∧
        plan.at = f.number)
    (hgrants : ∀ id p, node.permissions.get? id = some p → (s.nodes target).permissions.get? id = some p ∨
      ∃ r repository, s.doc.repositories.get? id = some r ∧ repository.text = id ∧
        initialPermissions repository r = .ok p) :
    Sound l { s with nodes := Function.update s.nodes target node } ∧
      Grows s { s with nodes := Function.update s.nodes target node } := by
  have hupdated : ∀ t, (s.nodes t).Grows (Function.update s.nodes target node t) := by
    intro t
    by_cases ht : t = target
    · subst ht
      rw [Function.update_self]
      exact hnode
    · rw [Function.update_of_ne ht]
      exact Node.Grows.refl _
  have hgrows : Grows s { s with nodes := Function.update s.nodes target node } :=
    ⟨fun id r hget => ⟨r, hget, Alike.refl r, fun hr => hr⟩, hupdated⟩
  refine ⟨⟨h.documents, h.drawn, ?_, ?_, ?_, fun p hp => (h.going p hp).mono hgrows⟩, hgrows⟩
  · intro t id plan hget
    by_cases ht : t = target
    · subst ht
      simp only [Function.update_self] at hget
      exact (hcopies id plan hget).elim (h.copies t id plan) (fun hr => hr)
    · simp only [Function.update_of_ne ht] at hget
      exact h.copies t id plan hget
  · intro t id p hget
    by_cases ht : t = target
    · subst ht
      simp only [Function.update_self] at hget
      exact (hgrants id p hget).elim (h.grants t id p) (fun hr => hr)
    · simp only [Function.update_of_ne ht] at hget
      exact h.grants t id p hget
  · intro id r hget hphase
    exact (h.ready id r hget hphase).mono (hupdated _) (Alike.refl r)

section performed
variable {p : Pending Id}

theorem Sound.provisioned (h : Sound l s) (p : Pending Id) :
    ∃ node, (s.nodes p.target).perform (.provision p.repository) = .ok node ∧
      Sound l { s with nodes := Function.update s.nodes p.target node } ∧
      Grows s { s with nodes := Function.update s.nodes p.target node } ∧
      p.repository.text ∈ node.provisioned := by
  obtain ⟨hsound, hgrows⟩ := h.with_node p.target { s.nodes p.target with
    provisioned := (s.nodes p.target).provisioned.add p.repository.text }
    ⟨fun _ hid => SortedSet.mem_add.mpr (Or.inr hid), fun _ _ hplan => hplan, fun _ _ hq => hq⟩
    (fun _ _ hplan => Or.inl hplan) (fun _ _ hq => Or.inl hq)
  exact ⟨_, rfl, hsound, hgrows, SortedSet.mem_add.mpr (Or.inl rfl)⟩

/-- Copying a fork: the node has no copy but of the fork's origin. -/
theorem Sound.forked {plan : ForkPlan} (h : Sound l s) (hp : Going s p) (hplan : p.plan = some plan) :
    ∃ node, (s.nodes p.target).perform (.fork plan) = .ok node ∧
      Sound l { s with nodes := Function.update s.nodes p.target node } ∧
      Grows s { s with nodes := Function.update s.nodes p.target node } ∧
      Copied node p.repository.text p.record := by
  obtain ⟨r, hr, halike, _⟩ := hp.record
  have horigin : p.record.fork = some ⟨plan.source.text, plan.at⟩ := by
    rw [← hp.plan, hplan]
    rfl
  unfold Node.perform
  simp only [hp.copy plan hplan]
  cases hget : (s.nodes p.target).copied.get? p.repository.text with
  | none =>
      have hcopied : Copied { s.nodes p.target with
          copied := (s.nodes p.target).copied.insert p.repository.text plan } p.repository.text p.record := by
        intro f hf
        rw [horigin] at hf
        cases hf
        exact ⟨plan, by rw [SortedMap.get?_insert, if_pos rfl], rfl, rfl⟩
      obtain ⟨hsound, hgrows⟩ := h.with_node p.target { s.nodes p.target with
        copied := (s.nodes p.target).copied.insert p.repository.text plan }
        ⟨fun _ hid => hid, (by
          intro id plan' hplan'
          rw [SortedMap.get?_insert, if_neg]
          · exact hplan'
          · intro hid
            rw [← hid, hget] at hplan'
            cases hplan'), fun _ _ hq => hq⟩
        (by
          intro id plan' hplan'
          rw [SortedMap.get?_insert] at hplan'
          split at hplan'
          · rename_i hid
            cases hplan'
            exact Or.inr ⟨r, _, by rw [← hid]; exact hr, halike.fork.trans horigin, rfl, rfl⟩
          · exact Or.inl hplan')
        (fun _ _ hq => Or.inl hq)
      exact ⟨_, by simp, hsound, hgrows, hcopied⟩
  | some current =>
      obtain ⟨hsound, hgrows⟩ := h.with_node p.target _ (Node.Grows.refl (s.nodes p.target)) (fun _ _ hplan => Or.inl hplan)
        (fun _ _ hq => Or.inl hq)
      refine ⟨s.nodes p.target, by simp, hsound, hgrows, ?_⟩
      intro f hf
      obtain ⟨r', f', hr', hf', hcopy⟩ := h.copies _ _ current hget
      obtain rfl := Option.some.inj (hr.symm.trans hr')
      rw [halike.fork, hf] at hf'
      cases hf'
      exact ⟨current, hget, hcopy⟩

/-- Applying the initial permissions: the node holds none but these. -/
theorem Sound.applied {permissions : AppliedPermissions} (h : Sound l s) (hp : Going s p)
    (hinitial : initialPermissions p.repository p.record = .ok permissions) :
    ∃ node, (s.nodes p.target).perform (.apply permissions) = .ok node ∧
      Sound l { s with nodes := Function.update s.nodes p.target node } ∧
      Grows s { s with nodes := Function.update s.nodes p.target node } ∧
      Permitted node p.repository.text p.record := by
  obtain ⟨r, hr, halike, _⟩ := hp.record
  unfold Node.perform
  simp only [(repository_of_initialPermissions hinitial).1]
  cases hget : (s.nodes p.target).permissions.get? p.repository.text with
  | none =>
      have hpermitted : Permitted { s.nodes p.target with
          permissions := (s.nodes p.target).permissions.insert p.repository.text permissions } p.repository.text
          p.record := ⟨p.repository, permissions, rfl, hinitial, by rw [SortedMap.get?_insert, if_pos rfl]⟩
      obtain ⟨hsound, hgrows⟩ := h.with_node p.target { s.nodes p.target with
        permissions := (s.nodes p.target).permissions.insert p.repository.text permissions }
        ⟨fun _ hid => hid, fun _ _ hplan => hplan, by
          intro id q hq
          rw [SortedMap.get?_insert, if_neg]
          · exact hq
          · intro hid
            rw [← hid, hget] at hq
            cases hq⟩
        (fun _ _ hplan => Or.inl hplan) (by
          intro id q hq
          rw [SortedMap.get?_insert] at hq
          split at hq
          · rename_i hid
            cases hq
            exact Or.inr ⟨r, p.repository, by rw [← hid]; exact hr, hid,
              (halike.initialPermissions p.repository).trans hinitial⟩
          · exact Or.inl hq)
      exact ⟨_, rfl, hsound, hgrows, hpermitted⟩
  | some current =>
      obtain ⟨r', repository, hr', hid, hcurrent⟩ := h.grants _ _ _ hget
      obtain rfl := RepositoryId.eq_of_text hid
      obtain rfl := Option.some.inj (hr.symm.trans hr')
      rw [halike.initialPermissions, hinitial] at hcurrent
      cases hcurrent
      obtain ⟨hsound, hgrows⟩ := h.with_node p.target _ (Node.Grows.refl (s.nodes p.target)) (fun _ _ hplan => Or.inl hplan)
        (fun _ _ hq => Or.inl hq)
      refine ⟨s.nodes p.target, by simp, hsound, hgrows, p.repository, permissions, rfl, hinitial, hget⟩

/-- A node call of a call in flight succeeds, keeps the invariant, and does what its stage says. -/
theorem Sound.performed {call : NodeCall} (h : Sound l s) (hp : Going s p) (hcall : p.call = .ok (some call)) :
    ∃ node, (s.nodes p.target).perform call = .ok node ∧ call.repository = p.repository ∧
      Sound l { s with nodes := Function.update s.nodes p.target node } ∧
      Grows s { s with nodes := Function.update s.nodes p.target node } ∧
      ∀ forked next, p.next forked = .inr next →
        Going { s with nodes := Function.update s.nodes p.target node } next ∧ next.target = p.target ∧
          next.repository = p.repository ∧ next.record = p.record := by
  unfold Pending.call at hcall
  cases hstage : p.stage with
  | provision =>
      rw [hstage] at hcall
      cases hcall
      obtain ⟨node, hperform, hsound, hgrows, hdone⟩ := h.provisioned p
      refine ⟨node, hperform, rfl, hsound, hgrows, fun forked next hnext => ?_⟩
      unfold Pending.next at hnext
      rw [hstage] at hnext
      cases hnext
      have hgoing := hp.mono hgrows
      refine ⟨⟨hgoing.record, hgoing.place, hgoing.plan, hgoing.copy, ?_, ?_, ?_, ?_⟩, rfl, rfl, rfl⟩
      · intro hphase
        obtain ⟨hplan, _⟩ := hgoing.ready hphase
        exact ⟨hplan, Or.inr (if_pos hplan)⟩
      · intro _
        simpa using hdone
      · -- a call that skips the copy is not a fork
        intro happly f hf
        have hplan : p.plan.isSome = false := by
          cases hsome : p.plan.isSome with
          | false => rfl
          | true => simp [hsome] at happly
        have hnone : p.record.fork = none := by
          rw [← hp.plan, Option.isSome_eq_false_iff.mp hplan |> Option.isNone_iff_eq_none.mp]
          rfl
        rw [hnone] at hf
        cases hf
      · intro hmark
        cases hsome : p.plan.isSome <;> simp [hsome] at hmark
  | fork =>
      rw [hstage] at hcall
      obtain ⟨plan, hplan, rfl⟩ := Option.map_eq_some_iff.mp (Except.ok.inj hcall)
      obtain ⟨node, hperform, hsound, hgrows, hdone⟩ := h.forked hp hplan
      refine ⟨node, hperform, hp.copy plan hplan, hsound, hgrows, fun forked next hnext => ?_⟩
      unfold Pending.next at hnext
      rw [hstage] at hnext
      simp only at hnext
      split at hnext
      · cases hnext
      · rename_i hphase
        cases hnext
        have hgoing := hp.mono hgrows
        refine ⟨⟨hgoing.record, hgoing.place, hgoing.plan, hgoing.copy, (fun hready => absurd hready hphase), ?_, ?_,
          (fun hmark => by cases hmark)⟩, rfl, rfl, rfl⟩
        · intro _
          exact hgoing.provisioned (by rw [hstage]; decide)
        · intro _
          simpa using hdone
  | apply =>
      rw [hstage] at hcall
      obtain ⟨permissions, hinitial, hcall⟩ := except_bind_eq_ok.mp hcall
      cases hcall
      obtain ⟨node, hperform, hsound, hgrows, hdone⟩ := h.applied hp hinitial
      refine ⟨node, hperform, (repository_of_initialPermissions hinitial).1, hsound, hgrows,
        fun forked next hnext => ?_⟩
      unfold Pending.next at hnext
      rw [hstage] at hnext
      cases hnext
      have hgoing := hp.mono hgrows
      refine ⟨⟨hgoing.record, hgoing.place, hgoing.plan, hgoing.copy, ?_, ?_, ?_, ?_⟩, rfl, rfl, rfl⟩
      · intro hphase
        have hearly := (hgoing.ready hphase).2
        rw [hstage] at hearly
        cases hearly with
        | inl h => cases h
        | inr h => cases h
      · intro _
        exact hgoing.provisioned (by rw [hstage]; decide)
      · intro _
        exact hgoing.copied (Or.inl hstage)
      · intro _
        simpa using hdone
  | mark =>
      rw [hstage] at hcall
      cases hcall

end performed

/-! ### One step -/

variable (crates : Crates Key)

/-- A retry of a fork that is ready, through a control plane of another node. -/
def Elsewhere (s : Site web Id) : Event web Id → Prop
  | .fork target bearer request now _ _ head =>
      ∃ caller reader id record, admitFork crates bearer request now head s.doc = .ok (caller, reader) ∧
        s.doc.operations.get? request.target.operation = some id ∧ s.doc.repositories.get? id = some record ∧
        record.Same caller.principal request.target (some request.origin) ∧ record.phase = .ready ∧
        record.target ≠ target
  | _ => False

/-- Calls in flight are at the nodes their repositories were reserved for, and so was every node call. -/
structure Placed (s : Site web Id) : Prop where
  calls : ∀ p ∈ s.calls, p.target = p.record.target
  sent : ∀ e ∈ s.sent, ∃ r, s.doc.repositories.get? e.2.repository.text = some r ∧ e.1 = r.target

variable {crates}

theorem Placed.step (h : Placed s) (hgrows : Grows s s')
    (hcalls : ∀ p ∈ s'.calls, p ∈ s.calls ∨ p.target = p.record.target)
    (hsent : ∀ e ∈ s'.sent, e ∈ s.sent ∨
      ∃ r, s'.doc.repositories.get? e.2.repository.text = some r ∧ e.1 = r.target) : Placed s' where
  calls p hp := (hcalls p hp).elim (h.calls p) (fun h => h)
  sent e he := by
    cases hsent e he with
    | inl hbefore =>
        obtain ⟨r, hget, htarget⟩ := h.sent e hbefore
        obtain ⟨r', hget', halike, _⟩ := hgrows.record _ r hget
        exact ⟨r', hget', htarget.trans halike.target.symm⟩
    | inr hnow => exact hnow

/-- What one step owes: the invariant, no loss, and the right node unless a fork is retried elsewhere. -/
structure Kept (l' : List (Event web Id)) (s s' : Site web Id) (here : Prop) : Prop where
  sound : Sound l' s'
  grows : Grows s s'
  placed : here → Placed s → Placed s'

/-- Steps of calls in flight, and answers. -/
theorem Kept.of_calls {here : Prop} {s₁ : Site web Id} (h : Kept l s s₁ here) (hdoc : s'.doc = s₁.doc)
    (hnodes : s'.nodes = s₁.nodes)
    (hcalls : ∀ p ∈ s'.calls, p ∈ s₁.calls ∨ (Going s₁ p ∧ (here → Placed s → p.target = p.record.target)))
    (hsent : ∀ e ∈ s'.sent, e ∈ s₁.sent ∨
      (here → Placed s → ∃ r, s₁.doc.repositories.get? e.2.repository.text = some r ∧ e.1 = r.target)) :
    Kept l s s' here := by
  have hgrows : Grows s₁ s' := by
    refine ⟨fun id r hget => ⟨r, by rw [hdoc]; exact hget, Alike.refl r, fun hr => hr⟩, fun target => ?_⟩
    rw [hnodes]
    exact Node.Grows.refl _
  refine ⟨?_, h.grows.trans hgrows, fun hhere hplaced => ?_⟩
  · exact h.sound.with_calls hdoc hnodes (fun p hp => (hcalls p hp).imp (fun h => h) And.left)
  · apply (h.placed hhere hplaced).step hgrows
    · exact fun p hp => (hcalls p hp).imp (fun h => h) (fun h => h.2 hhere hplaced)
    · rw [hdoc]
      exact fun e he => (hsent e he).imp (fun h => h) (fun h => h hhere hplaced)

theorem Sound.more (h : Sound l s) : Sound (l ++ [x]) s :=
  ⟨h.documents, fun id r hget => by rw [List.filterMap_append]; exact List.mem_append_left _ (h.drawn id r hget),
    h.copies, h.grants, h.ready, h.going⟩

theorem Sound.kept {here : Prop} (h : Sound l s) : Kept (l ++ [x]) s s here :=
  ⟨h.more, Grows.refl s, fun _ hplaced => hplaced⟩

theorem Kept.give {here : Prop} {s₁ : Site web Id} (h : Kept l s s₁ here) (answer : Returned Id) :
    Kept l s (s₁.give answer) here :=
  h.of_calls rfl rfl (fun _ hp => Or.inl hp) (fun _ he => Or.inl he)

theorem Kept.finish {here : Prop} {s₁ : Site web Id} (h : Kept l s s₁ here) (i : ℕ) (answer : Returned Id) :
    Kept l s (s₁.finish i answer) here :=
  h.of_calls rfl rfl (fun _ hp => Or.inl (List.mem_of_mem_eraseIdx hp)) (fun _ he => Or.inl he)

theorem of_parseRepository {id : Str} {repository : RepositoryId} (h : parseRepository id = .ok repository) :
    repository.text = id := by
  unfold parseRepository at h
  split at h
  · cases h
    rfl
  · cases h

/-- A call that has just been reserved. -/
theorem going_reserved {doc : State web} {target : NodeTarget} {repository : RepositoryId} {record : RepositoryRecord}
    {inserted : Bool} {plan : Option ForkPlan}
    (hget : doc.repositories.get? repository.text = some record)
    (hplace : record.phase = .provisioning → target = record.target)
    (hplan : plan.map (fun plan => (⟨plan.source.text, plan.at⟩ : ForkOf)) = record.fork)
    (hcopy : ∀ p, plan = some p → p.target = repository) (hready : record.phase = .ready → plan.isSome = true) :
    Going { s with doc := doc } ⟨target, repository, record, inserted, plan, none, .provision⟩ where
  record := ⟨record, hget, Alike.refl record, fun h => h⟩
  place := hplace
  plan := hplan
  copy := hcopy
  ready h := ⟨hready h, Or.inl rfl⟩
  provisioned h := absurd rfl h
  copied h := h.elim (fun h => by cases h) (fun h => by cases h)
  permitted h := by cases h

theorem Kept.of_doc {doc : State web} {here : Prop} (h : Sound l { s with doc := doc } ∧ Grows s { s with doc := doc }) :
    Kept l s { s with doc := doc } here :=
  ⟨h.1, h.2, fun _ hplaced => hplaced.step h.2 (fun _ hp => Or.inl hp) (fun _ he => Or.inl he)⟩

theorem kept_create {target : NodeTarget} {bearer draw : Str} {request : CreateRequest} {now : UInt64} {fault : Fault}
    {here : Prop} (h : Sound l s) (hx : x = .create target bearer request now draw fault)
    (hfresh : secret.id (text "repo_") draw ∉ l.filterMap Event.drawn) :
    Kept (l ++ [x]) s (s.step crates x) here := by
  subst hx
  simp only [Site.step]
  cases hvalid : validateRequest request with
  | error e => exact h.kept.give _
  | ok _ =>
      simp only
      cases Store.update_cases fault (createUpdate crates target bearer request now draw) s.doc with
      | inl hkept =>
          obtain ⟨e, he⟩ := hkept
          rw [he]
          exact h.kept.give _
      | inr hchanged =>
          obtain ⟨⟨id, record, inserted⟩, doc, _, hchange, hu⟩ := hchanged
          rw [hu]
          obtain ⟨caller, _, hreserve⟩ := except_bind_eq_ok.mp hchange
          obtain ⟨hsound, hgrows, hget, hfork, hplace⟩ := h.reserved (.create target bearer request now draw fault)
            hreserve hfresh rfl
          have hdoc : Kept (l ++ [.create target bearer request now draw fault]) s { s with doc := doc } here :=
            Kept.of_doc ⟨hsound, hgrows⟩
          unfold Site.createReserved
          simp only
          cases hparse : parseRepository id with
          | error e => exact hdoc.give _
          | ok repository =>
              obtain rfl := of_parseRepository hparse
              simp only
              split
              · exact hdoc.give _
              · rename_i hphase
                have hgoing : Going { s with doc := doc }
                    (⟨target, repository, record, inserted, none, none, .provision⟩ : Pending Id) :=
                  going_reserved hget hplace hfork.symm (fun _ h => by cases h) (fun h => absurd h hphase)
                have hprovisioning : record.phase = .provisioning := by
                  cases hp : record.phase with
                  | provisioning => rfl
                  | ready => exact absurd hp hphase
                refine hdoc.of_calls rfl rfl (fun p hp => ?_) (fun _ he => Or.inl he)
                cases List.mem_append.mp hp with
                | inl hbefore => exact Or.inl hbefore
                | inr hnew =>
                    obtain rfl := List.mem_singleton.mp hnew
                    exact Or.inr ⟨hgoing, fun _ _ => hplace hprovisioning⟩

theorem kept_fork {target : NodeTarget} {bearer draw : Str} {request : ForkRequest} {now : UInt64} {fault : Fault}
    {head : Except ControlError ℕ} (h : Sound l s) (hx : x = .fork target bearer request now draw fault head)
    (hfresh : secret.id (text "repo_") draw ∉ l.filterMap Event.drawn) :
    Kept (l ++ [x]) s (s.step crates x) (¬ Elsewhere crates s x) := by
  subst hx
  simp only [Site.step]
  cases hvalid : validateRequest request.target with
  | error e => exact h.kept.give _
  | ok _ =>
      simp only
      cases Store.update_cases fault (forkUpdate crates target bearer request now draw head) s.doc with
      | inl hkept =>
          obtain ⟨e, he⟩ := hkept
          rw [he]
          exact h.kept.give _
      | inr hchanged =>
          obtain ⟨⟨id, record, inserted, reader⟩, doc, _, hchange, hu⟩ := hchanged
          rw [hu]
          obtain ⟨⟨caller, reader'⟩, hadmit, hchange⟩ := except_bind_eq_ok.mp hchange
          obtain ⟨⟨⟨id', record', inserted'⟩, doc'⟩, hreserve, hchange⟩ := except_bind_eq_ok.mp hchange
          cases hchange
          obtain ⟨hsound, hgrows, hget, hfork, hplace⟩ := h.reserved
            (.fork target bearer request now draw fault head) hreserve hfresh rfl
          have hdoc : Kept (l ++ [.fork target bearer request now draw fault head]) s { s with doc := doc }
              (¬ Elsewhere crates s (.fork target bearer request now draw fault head)) :=
            Kept.of_doc ⟨hsound, hgrows⟩
          -- a fork that is ready is at its own node, unless it is retried elsewhere
          have htarget : ¬ Elsewhere crates s (.fork target bearer request now draw fault head) →
              target = record.target := by
            intro hhere
            cases hphase : record.phase with
            | provisioning => exact hplace hphase
            | ready =>
                cases of_reserve hreserve with
                | inl hfound =>
                    obtain ⟨_, hop, hrecord, hsame, _⟩ := hfound
                    by_contra hne
                    exact hhere ⟨caller, reader, id, record, hadmit, hop, hrecord, hsame, hphase, fun h => hne h.symm⟩
                | inr hnew =>
                    obtain ⟨_, _, _, rfl, _⟩ := hnew
                    rfl
          unfold Site.forkReserved
          simp only
          cases hparse : parseRepository id with
          | error e => exact hdoc.give _
          | ok repository =>
              obtain rfl := of_parseRepository hparse
              cases hsource : parseRepository request.source with
              | error e => exact hdoc.give _
              | ok source =>
                  have hgoing : Going { s with doc := doc } (⟨target, repository, record, inserted,
                      some ⟨source, repository, request.«at», reader⟩, none, .provision⟩ : Pending Id) := by
                    apply going_reserved hget hplace
                    · rw [hfork]
                      simp [ForkRequest.origin, of_parseRepository hsource]
                    · intro plan hplan
                      cases hplan
                      rfl
                    · exact fun _ => rfl
                  refine hdoc.of_calls rfl rfl (fun p hp => ?_) (fun _ he => Or.inl he)
                  cases List.mem_append.mp hp with
                  | inl hbefore => exact Or.inl hbefore
                  | inr hnew =>
                      obtain rfl := List.mem_singleton.mp hnew
                      exact Or.inr ⟨hgoing, fun hhere _ => htarget hhere⟩

/-- The node call of a call in flight, sent to the node the call is at. -/
theorem kept_node {p : Pending Id} {i : ℕ} {here : Prop} (h : Sound l s) (hp : p ∈ s.calls) (outcome : Outcome Id) :
    Kept (l ++ [x]) s (s.nodeStep i p outcome) here := by
  have hgoing := h.going p hp
  unfold Site.nodeStep
  cases hcall : p.call with
  | error e => exact h.kept.finish i _
  | ok call =>
      cases call with
      | none => exact h.kept
      | some call =>
          obtain ⟨node, hperform, hrepository, hsound, hgrows, hnext⟩ := h.performed hgoing hcall
          -- the call is sent where the repository was reserved
          have hsent : Placed s → ∃ r, s.doc.repositories.get? call.repository.text = some r ∧ p.target = r.target := by
            intro hplaced
            obtain ⟨r, hget, halike, _⟩ := hgoing.record
            rw [hrepository]
            exact ⟨r, hget, (hplaced.calls p hp).trans halike.target.symm⟩
          have hasked : Kept (l ++ [x]) s { s with sent := (p.target, call) :: s.sent } here := by
            refine h.kept.of_calls rfl rfl (fun _ hq => Or.inl hq) (fun e he => ?_)
            cases List.mem_cons.mp he with
            | inl hnow =>
                subst hnow
                exact Or.inr (fun _ hplaced => hsent hplaced)
            | inr hbefore => exact Or.inl hbefore
          have hdone : Kept (l ++ [x]) s
              { s with sent := (p.target, call) :: s.sent, nodes := Function.update s.nodes p.target node } here := by
            have hmoved : Kept (l ++ [x]) s { s with nodes := Function.update s.nodes p.target node } here :=
              ⟨hsound.more, hgrows, fun _ hplaced =>
                hplaced.step hgrows (fun _ hq => Or.inl hq) (fun _ he => Or.inl he)⟩
            refine hmoved.of_calls rfl rfl (fun _ hq => Or.inl hq) (fun e he => ?_)
            cases List.mem_cons.mp he with
            | inl hnow =>
                subst hnow
                exact Or.inr (fun _ hplaced => hsent hplaced)
            | inr hbefore => exact Or.inl hbefore
          cases outcome with
          | lost e => exact hasked.finish i _
          | unanswered e =>
              simp only [hperform]
              exact hdone.finish i _
          | answered forked =>
              simp only [hperform]
              cases hafter : p.next forked with
              | inl answer => exact hdone.finish i _
              | inr next =>
                  obtain ⟨hgoes, htarget, _, hrecord⟩ := hnext forked next hafter
                  refine hdone.of_calls rfl rfl (fun q hq => ?_) (fun _ he => Or.inl he)
                  cases List.mem_or_eq_of_mem_set hq with
                  | inl hbefore => exact Or.inl hbefore
                  | inr hnew =>
                      subst hnew
                      refine Or.inr ⟨hgoes.mono ⟨?_, fun _ => Node.Grows.refl _⟩, fun _ hplaced => ?_⟩
                      · exact fun id r hget => ⟨r, hget, Alike.refl r, fun hr => hr⟩
                      · rw [htarget, hrecord]
                        exact hplaced.calls p hp

theorem kept_mark {p : Pending Id} {i : ℕ} {here : Prop} {fault : Fault} (h : Sound l s) (hp : p ∈ s.calls)
    (hstage : p.stage = .mark) : Kept (l ++ [x]) s (s.markStep i p fault) here := by
  unfold Site.markStep
  cases Store.update_cases fault (markReady p.repository.text) s.doc with
  | inl hkept =>
      obtain ⟨e, he⟩ := hkept
      simp only [he]
      exact h.kept.finish i _
  | inr hchanged =>
      obtain ⟨ready, doc, _, hmark, hu⟩ := hchanged
      simp only [hu]
      obtain ⟨hsound, hgrows⟩ := h.marked (h.going p hp) hstage hmark
      exact (Kept.of_doc ⟨hsound.more, hgrows⟩).finish i _

/-- Every step keeps the invariant. -/
theorem kept_step (h : Sound l s) (hfresh : ((l ++ [x]).filterMap Event.drawn).Nodup) :
    Kept (l ++ [x]) s (s.step crates x) (¬ Elsewhere crates s x) := by
  have hnew : ∀ id, x.drawn = some id → id ∉ l.filterMap Event.drawn := by
    intro id hdrawn hmem
    rw [List.filterMap_append, List.filterMap_cons_some hdrawn] at hfresh
    exact List.disjoint_of_nodup_append hfresh hmem List.mem_cons_self
  cases hx : x with
  | signIn y =>
      obtain ⟨hrepositories, hoperations⟩ := after_repositories crates s.doc y
      refine Kept.of_doc (h.with_same_doc _ hrepositories hoperations (fun id hid => ?_))
      rw [List.filterMap_append]
      exact List.mem_append_left _ hid
  | create target bearer request now draw fault => exact kept_create h rfl (hnew _ (by rw [hx]; rfl))
  | fork target bearer request now draw fault head => exact kept_fork h rfl (hnew _ (by rw [hx]; rfl))
  | node i outcome =>
      simp only [Site.step]
      cases hcall : s.calls[i]? with
      | none => exact h.kept
      | some p => exact kept_node h (List.mem_of_getElem? hcall) outcome
  | mark i fault =>
      simp only [Site.step]
      cases hcall : s.calls[i]? with
      | none => exact h.kept
      | some p =>
          simp only
          split
          · rename_i hstage
            exact kept_mark h (List.mem_of_getElem? hcall) hstage
          · exact h.kept
  | stop i =>
      exact h.kept.of_calls rfl rfl (fun _ hp => Or.inl (List.mem_of_mem_eraseIdx hp)) (fun _ he => Or.inl he)

end Javelin.Control
