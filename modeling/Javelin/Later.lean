import Javelin.Compose

/-! # Later states

`Later r r'` says what any run from `r` to `r'` leaves: rows are added and never changed, the
events of a published Layer are final, a success is of a version that was not there before, and a
publication without a World attempt never gets one.

`Stable x y` says that `y` returns whatever `x` returns.  Every read is stable from a state to a
later one, so an outcome or a receipt that reads back once reads back the same for ever
(`layerOutcome_later`, `receiptIn_later`). -/

namespace Javelin

open KeyedList

/-! ### Stable computations -/

section stable
variable {ε α β : Type}

/-- Whatever `x` returns, `y` returns. -/
def Stable (x y : Except ε α) : Prop := ∀ a, x = .ok a → y = .ok a

namespace Stable
variable {x y : Except ε α} {f g : α → Except ε β}

@[refl] theorem refl (x : Except ε α) : Stable x x := fun _ h => h

theorem of_error {e : ε} (h : x = .error e) : Stable x y := by
  intro a ha
  rw [h] at ha
  cases ha

/-- Sequences are stable if their parts are, up to a relation on what is passed on. -/
theorem bind_of {R : α → α → Prop} (hx : ∀ a, x = .ok a → ∃ a', y = .ok a' ∧ R a a')
    (hf : ∀ a a', x = .ok a → R a a' → Stable (f a) (g a')) : Stable (x >>= f) (y >>= g) := by
  intro b hb
  cases x with
  | error e => cases hb
  | ok a =>
      obtain ⟨a', rfl, hR⟩ := hx a rfl
      exact hf a a' rfl hR b hb

theorem bind (hx : Stable x y) (hf : ∀ a, x = .ok a → Stable (f a) (g a)) :
    Stable (x >>= f) (y >>= g) := by
  apply bind_of (R := Eq)
  · exact fun a ha => ⟨a, hx a ha, rfl⟩
  · rintro a _ ha rfl
    exact hf a ha

end Stable

end stable

theorem Stable.refuse {Id : Type} {p q : Prop} [Decidable p] [Decidable q] {e e' : Error Id}
    (h : ¬ p → ¬ q) : Stable (refuse p e) (refuse q e') := by
  intro a ha
  rw [refuse_eq_ok] at ha ⊢
  exact h ha

theorem Stable.rewrap {Id α : Type} {text : String} {x y : Except (Error Id) α} (h : Stable x y) :
    Stable (rewrap text x) (rewrap text y) := by
  intro a ha
  rw [rewrap_eq_ok] at ha ⊢
  exact h a ha

variable {Id : Type} [LinearOrder Id] [Encoding Id]

namespace Objects
variable {objects objects' : Objects Id}

theorem Extends.stable_read (h : objects.Extends objects') (id : Id) (k : ObjectKind) :
    Stable (objects.read id k) (objects'.read id k) := fun _ ho => h.read ho

theorem Extends.readBlob (h : objects.Extends objects') (id : Id) :
    Stable (objects.readBlob id) (objects'.readBlob id) :=
  (h.stable_read id _).bind (fun _ _ => .refl _)

theorem Extends.readCheckpoint (h : objects.Extends objects') (id : Id) :
    Stable (objects.readCheckpoint id) (objects'.readCheckpoint id) :=
  (h.stable_read id _).bind (fun _ _ => .refl _)

theorem Extends.validateEntry (h : objects.Extends objects') (entry : FileEntry Id) :
    Stable (objects.validateEntry entry) (objects'.validateEntry entry) :=
  (h.readBlob _).bind (fun _ _ => .refl _)

theorem Extends.readProvenance (h : objects.Extends objects') (id : Id) :
    Stable (objects.readProvenance id) (objects'.readProvenance id) :=
  (h.readBlob _).bind (fun _ _ => .refl _)

end Objects

namespace Repository
variable {r r' r'' : Repository Id} {S S' : VersionNumber → Manifest Id}

/-! ### Growth -/

/-- What a run leaves of a state. -/
structure Later (r r' : Repository Id) : Prop where
  identity : r'.identity = r.identity
  objects : r.objects.Extends r'.objects
  versions : ∀ (n : ℕ) v, r.versions[n]? = some v → r'.versions[n]? = some v
  changes : ∀ n < r.versions.length, r'.changes.get? n = r.changes.get? n
  attempts : ∀ op a, r.attempts.get? op = some a → r'.attempts.get? op = some a
  events : ∀ layer n e, (r.events layer).get? n = some e → (r'.events layer).get? n = some e
  layerAttempts : ∀ op a, r.layerAttempts.get? op = some a → r'.layerAttempts.get? op = some a
  stackRows : ∀ op a, r.layerAttempts.get? op = some a → r'.stackRows.get? op = r.stackRows.get? op
  publications : ∀ op row, r.publications.get? op = some row → r'.publications.get? op = some row
  published : ∀ op row, r'.publications.get? op = some row → row.outcome = .published →
    r.publications.get? op = some row ∨ ∃ n, row.result = some n ∧ r.versions.length ≤ n
  final : ∀ op row, r.publications.get? op = some row → row.outcome = .published →
    r'.events row.layer = r.events row.layer
  unowned : ∀ op row, r.publications.get? op = some row → r.attempts.get? op = none →
    r'.attempts.get? op = none

omit [Encoding Id] in
theorem Later.length_le (h : Later r r') : r.versions.length ≤ r'.versions.length := by
  by_contra hlt
  have hlast : r.versions[r'.versions.length]? = some r.versions[r'.versions.length] :=
    List.getElem?_eq_getElem (by omega)
  have hmiss := h.versions _ _ hlast
  rw [List.getElem?_eq_none (Nat.le_refl _)] at hmiss
  cases hmiss

omit [Encoding Id] in
@[refl] theorem Later.refl (r : Repository Id) : Later r r where
  identity := rfl
  objects := .refl _
  versions _ _ h := h
  changes _ _ := rfl
  attempts _ _ h := h
  events _ _ _ h := h
  layerAttempts _ _ h := h
  stackRows _ _ _ := rfl
  publications _ _ h := h
  published _ _ h _ := Or.inl h
  final _ _ _ _ := rfl
  unowned _ _ _ h := h

omit [Encoding Id] in
theorem Later.trans (h : Later r r') (h' : Later r' r'') : Later r r'' where
  identity := h'.identity.trans h.identity
  objects := h.objects.trans h'.objects
  versions n v hv := h'.versions n v (h.versions n v hv)
  changes n hn := (h'.changes n (hn.trans_le h.length_le)).trans (h.changes n hn)
  attempts op a ha := h'.attempts op a (h.attempts op a ha)
  events layer n e he := h'.events layer n e (h.events layer n e he)
  layerAttempts op a ha := h'.layerAttempts op a (h.layerAttempts op a ha)
  stackRows op a ha := (h'.stackRows op a (h.layerAttempts op a ha)).trans (h.stackRows op a ha)
  publications op row hr := h'.publications op row (h.publications op row hr)
  published op row hr hp := by
    rcases h'.published op row hr hp with hr | ⟨n, hn, hle⟩
    · exact h.published op row hr hp
    · exact Or.inr ⟨n, hn, h.length_le.trans hle⟩
  final op row hr hp := (h'.final op row (h.publications op row hr) hp).trans (h.final op row hr hp)
  unowned op row hr ha := h'.unowned op row (h.publications op row hr) (h.unowned op row hr ha)

theorem Later.snapshot (h : Later r r') (hc : Chain r S) (hc' : Chain r' S') {n : ℕ} {v : WorldVersion Id}
    (hv : r.versions[n]? = some v) : S' n = S n := by
  apply Manifest.flat_injective
  exact (hc'.tree n v (h.versions n v hv)).flat_eq (hc.tree n v hv)

/-! ### Reads -/

section reads
variable (h : Later r r')
include h

omit [Encoding Id] in
theorem Later.eventIn (layer : LayerId) (revision : ℕ) :
    Stable (r.eventIn layer revision) (r'.eventIn layer revision) := by
  unfold Repository.eventIn
  cases he : (r.events layer).get? revision with
  | none => exact .of_error rfl
  | some e =>
      rw [h.events layer revision e he]

omit [Encoding Id] in
theorem Later.eventStateIn (layer : LayerId) (revision : ℕ) :
    Stable (r.eventStateIn layer revision) (r'.eventStateIn layer revision) := by
  unfold Repository.eventStateIn
  rw [h.identity]
  exact (h.eventIn layer revision).bind (fun _ _ => .refl _)

omit [Encoding Id] in
theorem Later.layerHeadIn (layer : LayerId) (revision : ℕ) :
    Stable (r.layerHeadIn layer revision) (r'.layerHeadIn layer revision) :=
  (h.eventStateIn layer revision).bind (fun _ _ => .refl _)

theorem Later.checkProvenance (provenance : Option Id) :
    Stable (r.checkProvenance provenance) (r'.checkProvenance provenance) := by
  cases provenance with
  | none => exact .refl _
  | some id => exact (Stable.rewrap (h.objects.readProvenance id)).bind (fun _ _ => .refl _)

theorem Later.warningsIn (attribution : PublishAttribution Id) :
    Stable (r.warningsIn attribution) (r'.warningsIn attribution) := by
  unfold Repository.warningsIn
  split
  · exact .refl _
  · exact (h.objects.readBlob _).bind (fun _ _ => .refl _)
  · exact .refl _
  · exact .refl _

theorem Later.verifyBinding (operation : OperationId) (expected : LayerHead Id) (source candidate : Id)
    (outcome : LayerUpdate Id) (hrow : r'.stackRows.get? operation = r.stackRows.get? operation) :
    Stable (r.verifyBinding operation expected source candidate outcome)
      (r'.verifyBinding operation expected source candidate outcome) := by
  unfold Repository.verifyBinding
  rw [hrow]
  cases r.stackRows.get? operation with
  | none => exact .refl _
  | some row =>
      refine (h.objects.readBlob _).bind (fun stored _ => Stable.bind (.refl _) (fun resolution _ => ?_))
      refine Stable.bind (.refl _) (fun _ _ => ?_)
      cases resolution with
      | none => exact .refl _
      | some id => exact (h.objects.readBlob _).bind (fun _ _ => .refl _)

section chain
variable (hc : Chain r S) (hc' : Chain r' S')
include hc hc'

theorem Later.versionIn (n : VersionNumber) : Stable (r.versionIn n) (r'.versionIn n) := by
  intro v hv
  rw [hc.versionIn_eq_ok] at hv
  exact hc'.versionIn_eq_ok.mpr (h.versions n v hv)

omit [Encoding Id] hc hc' in
theorem Later.changesetIn {n : VersionNumber} {v : WorldVersion Id} (hv : r.versions[n]? = some v) :
    r'.changesetIn n = r.changesetIn n := by
  obtain ⟨hlt, _⟩ := List.getElem?_eq_some_iff.mp hv
  unfold Repository.changesetIn changeRows
  rw [h.changes n hlt]

theorem Frozen.later {id : Id} {checkpoint : LayerCheckpoint Id} (hf : Frozen r S id checkpoint) :
    Frozen r' S' id checkpoint := by
  obtain ⟨v, hv, hworld⟩ := hf.version
  have hsame := h.snapshot hc hc' hv
  exact {
    named := hf.named
    stored := h.objects.readCheckpoint _ _ hf.stored
    small := hf.small
    repository := hf.repository.trans h.identity.symm
    version := ⟨v, h.versions _ v hv, hworld⟩
    contents := fun p e hp => h.objects.validateEntry e _ (hf.contents p e hp)
    exact := hsame ▸ hf.exact
    sources := hf.sources
    provenance := h.checkProvenance _ _ hf.provenance }

theorem Later.checkpointIn (id : Id) : Stable (r.checkpointIn id) (r'.checkpointIn id) := by
  intro checkpoint hok
  rw [checkpointIn_eq_ok hc] at hok
  exact (checkpointIn_eq_ok hc').mpr (hok.later h hc hc')

/-- Two results of composing that differ in their chunks at most. -/
def Alike (a b : List RepoPath ⊕ Composition Id) : Prop :=
  match a, b with
  | .inl paths, .inl paths' => paths = paths'
  | .inr c, .inr c' => c.changes = c'.changes ∧ c.tree = c'.tree
  | _, _ => False

/-- The same composition, or the same conflict, is found later. -/
theorem Later.composeIn {head : LayerHead Id} {world : WorldVersion Id}
    (hw : r.versions[world.number]? = some world) {composed : List RepoPath ⊕ Composition Id}
    (hok : r.composeIn head world = .ok composed) :
    ∃ composed', r'.composeIn head world = .ok composed' ∧ Alike composed composed' := by
  obtain ⟨checkpoint, hf, hle, hres⟩ := of_composeIn hc hw hok
  obtain ⟨v, hv, _⟩ := hf.version
  have hf' := hf.later h hc hc'
  have hw' := h.versions _ world hw
  have hmeets : ∀ x, Meets S' checkpoint world.number x ↔ Meets S checkpoint world.number x := by
    intro x
    unfold Meets
    rw [h.snapshot hc hc' hv, h.snapshot hc hc' hw]
  cases composed with
  | inl paths =>
      obtain ⟨hne, found, rfl, hmem⟩ := hres
      have hex : ∃ x, Meets S' checkpoint world.number x := by
        by_contra hno
        refine hne (SortedSet.keys_eq_nil.mpr (fun x hx => hno ⟨x, ?_⟩))
        exact (hmeets x).mpr ((hmem x).mp hx)
      obtain ⟨found', hok', hmem'⟩ := exists_conflict hc' hw' hf' hle hex
      have hsame : found = found' := by
        apply SortedSet.ext
        intro x
        rw [hmem x, hmem' x, hmeets x]
      exact ⟨_, hok', congrArg SortedMap.keys hsame⟩
  | inr composition =>
      have hres : Composes r S checkpoint world.number composition := hres
      have hapart' : ∀ x, ¬ Meets S' checkpoint world.number x :=
        fun x hx => hres.apart x ((hmeets x).mp hx)
      have hsame := h.snapshot hc hc' hw
      have hlow : ¬ TooTall MAX_DEPTH ((S' world.number).flat.over checkpoint.changes.flat) := by
        rw [hsame]
        exact hres.tree.not_tooTall
      obtain ⟨composition', hok', hres'⟩ := exists_composition hc' hw' hf' hle hapart' hlow
      have htree := hres'.tree
      rw [hsame] at htree
      exact ⟨_, hok', hres.changes.trans hres'.changes.symm, hres.tree.unique htree⟩

/-! ### Recorded Layer outcomes -/

omit [Encoding Id] hc hc' in
theorem Later.sourceIn {operation : OperationId} {attempt : LayerAttempt Id}
    (ha : r.layerAttempts.get? operation = some attempt) : r'.sourceIn operation = r.sourceIn operation := by
  unfold Repository.sourceIn
  rw [h.stackRows operation attempt ha]

/-- A recorded outcome stays as it is. -/
theorem Later.layerOutcome (operation : OperationId) :
    Stable (r.layerOutcome operation) (r'.layerOutcome operation) := by
  unfold Repository.layerOutcome layerOutcomeWith
  cases ha : r.layerAttempts.get? operation with
  | none => exact .of_error rfl
  | some attempt =>
      rw [h.layerAttempts _ _ ha, h.sourceIn ha]
      have hread := h.checkpointIn hc hc'
      have hupdate : ∀ candidate after, r'.attemptUpdate operation attempt candidate after =
          r.attemptUpdate operation attempt candidate after := by
        intro candidate after
        unfold attemptUpdate
        rw [h.identity]
      refine (h.eventIn _ _).bind (fun before _ => (h.eventIn _ _).bind (fun after _ => ?_))
      refine (hread _).bind (fun candidate _ => (hread _).bind (fun beforeCheckpoint _ => ?_))
      refine Stable.bind (.refl _) (fun _ _ => Stable.bind (.refl _) (fun _ _ => ?_))
      refine Stable.bind ?_ (fun sources _ => Stable.bind (.refl _) (fun _ _ => ?_))
      · unfold attemptSources
        split
        · exact .refl _
        · exact Stable.bind (.refl _) (fun _ _ => (hread _).bind (fun _ _ => .refl _))
      rw [hupdate]
      refine Stable.bind (.refl _) (fun outcome _ => ?_)
      cases r.sourceIn operation with
      | none => exact .refl _
      | some source =>
          refine (h.layerHeadIn _ _).bind (fun head _ => ?_)
          exact (h.verifyBinding _ _ _ _ _ (h.stackRows _ _ ha)).bind (fun _ _ => .refl _)

/-! ### Receipts -/

omit h hc' in
theorem worldAt_eq_ok {n : VersionNumber} {v : WorldVersion Id} :
    r.worldAt n = .ok v ↔ r.versions[n]? = some v := by
  unfold Repository.worldAt
  rw [rewrap_eq_ok]
  exact hc.versionIn_eq_ok

theorem Later.worldAt (n : VersionNumber) : Stable (r.worldAt n) (r'.worldAt n) :=
  (h.versionIn hc hc' n).rewrap

theorem Later.successState (operation : OperationId) (row : PublicationRow Id) :
    Stable (r.successState operation row) (r'.successState operation row) := by
  unfold Repository.successState
  refine Stable.bind (.refl _) (fun _ _ => (h.layerHeadIn _ _).bind (fun head _ => ?_))
  cases row.result with
  | none => exact .refl _
  | some result => exact (h.worldAt hc hc' result).bind (fun _ _ => .refl _)

theorem Later.observedIn (operation : OperationId) (row : PublicationRow Id) :
    Stable (r.observedIn operation row) (r'.observedIn operation row) := by
  unfold Repository.observedIn
  refine (h.eventStateIn _ _).bind (fun observed _ => ?_)
  cases row.observedPublication with
  | none => exact .refl _
  | some id =>
      simp only
      cases hprior : r.publications.get? id with
      | none => exact .of_error rfl
      | some prior =>
          rw [h.publications id prior hprior]
          refine Stable.bind (.refl _) (fun _ _ => Stable.bind (.refl _) (fun _ _ => ?_))
          exact h.successState hc hc' id prior

omit [LinearOrder Id] [Encoding Id] hc hc' h in
theorem ignoresTerminal_iff {row : PublicationRow Id} : r.ignoresTerminal row = true ↔
    ∃ op prior n, r.publications.get? op = some prior ∧ prior.layer = row.layer ∧
      prior.outcome = .published ∧ prior.result = some n ∧ n ≤ row.against ∧
      row.observedPublication ≠ some op := by
  unfold ignoresTerminal
  rw [List.any_eq_true]
  constructor
  · rintro ⟨⟨op, prior⟩, hm, hall⟩
    simp only [Bool.and_eq_true, decide_eq_true_eq, Option.any_eq_true] at hall
    obtain ⟨⟨⟨hlayer, htag⟩, n, hn, hle⟩, hobs⟩ := hall
    exact ⟨op, prior, n, SortedMap.get?_eq_some.mpr hm, hlayer, htag, hn, hle, hobs⟩
  · rintro ⟨op, prior, n, hget, hlayer, htag, hn, hle, hobs⟩
    refine ⟨(op, prior), SortedMap.get?_eq_some.mp hget, ?_⟩
    simp only [Bool.and_eq_true, decide_eq_true_eq, Option.any_eq_true]
    exact ⟨⟨⟨hlayer, htag⟩, n, hn, hle⟩, hobs⟩

omit [Encoding Id] hc hc' in
/-- A later success is of a version that was not there. -/
theorem Later.ignoresTerminal {row : PublicationRow Id} {against : WorldVersion Id}
    (hag : r.versions[row.against]? = some against) (hno : ¬ r.ignoresTerminal row = true) :
    ¬ r'.ignoresTerminal row = true := by
  rw [ignoresTerminal_iff] at hno ⊢
  rintro ⟨op, prior, n, hget, hlayer, htag, hn, hle, hobs⟩
  rcases h.published op prior hget htag with hold | ⟨m, hm, hlen⟩
  · exact hno ⟨op, prior, n, hold, hlayer, htag, hn, hle, hobs⟩
  · obtain rfl := Option.some.inj (hm.symm.trans hn)
    obtain ⟨hlt, _⟩ := List.getElem?_eq_some_iff.mp hag
    exact absurd (hlen.trans hle) (Nat.not_le.mpr hlt)

/-- The outcome of a stored publication is derived again. -/
theorem Later.outcomeIn {operation : OperationId} {row : PublicationRow Id}
    (hrow : r.publications.get? operation = some row) {expected : LayerHead Id}
    {against : WorldVersion Id} (hag : r.versions[against.number]? = some against)
    (observed : LayerState Id) :
    Stable (r.outcomeIn operation row expected against observed)
      (r'.outcomeIn operation row expected against observed) := by
  have hcompose : ∀ a, r.composeIn expected against = .ok a →
      ∃ a', r'.composeIn expected against = .ok a' ∧ Alike a a' :=
    fun a ha => h.composeIn hc hc' hag ha
  have hunowned : ∀ p : Prop, ¬ (r.attempts.get? operation ≠ none ∨ p) →
      ¬ (r'.attempts.get? operation ≠ none ∨ p) := by
    rintro p hp (hne | hp')
    · exact hne (h.unowned _ _ hrow (not_not.mp (fun hn => hp (Or.inl hn))))
    · exact hp (Or.inr hp')
  unfold Repository.outcomeIn
  cases htag : row.outcome with
  | published =>
      simp only
      unfold Repository.publishedOutcome
      cases row.result with
      | none => exact .refl _
      | some result =>
          have hevents : r'.latestEventStateIn row.layer = r.latestEventStateIn row.layer := by
            unfold latestEventStateIn latestIn
            rw [h.final _ _ hrow htag, h.identity]
          simp only
          rw [hevents]
          refine Stable.bind (Stable.refuse ?_) (fun _ _ => Stable.bind (.refl _) (fun latest _ => ?_))
          · rintro hno (hp | hp | hp | hp)
            · exact hno (Or.inl hp)
            · exact hno (Or.inr (Or.inl hp))
            · cases ha : r.attempts.get? operation with
              | none => exact hno (Or.inr (Or.inr (Or.inl ha)))
              | some a =>
                  rw [h.attempts _ _ ha] at hp
                  cases hp
            · exact hno (Or.inr (Or.inr (Or.inr hp)))
          refine Stable.bind (.refl _) (fun _ _ => Stable.bind_of hcompose ?_)
          rintro (paths | c) (paths' | c') _ halike
          · exact .of_error rfl
          · exact halike.elim
          · exact halike.elim
          · obtain ⟨hchanges, htree⟩ := halike
            simp only
            rw [← hchanges, ← htree]
            refine (h.worldAt hc hc' result).bind (fun version hversion => ?_)
            have hv := (worldAt_eq_ok hc).mp hversion
            have hnum := hc.contiguous _ _ hv
            rw [h.changesetIn (hnum ▸ hv)]
  | conflict =>
      simp only
      refine Stable.bind (Stable.refuse (hunowned _)) (fun _ _ => Stable.bind (.refl _) (fun _ _ => ?_))
      refine Stable.bind_of hcompose ?_
      rintro (paths | c) (paths' | c') _ halike
      · rw [show paths = paths' from halike]
      · exact halike.elim
      · exact halike.elim
      · exact .of_error rfl
  | layerStale =>
      simp only
      exact Stable.bind (Stable.refuse (hunowned _)) (fun _ _ => .refl _)

/-- A stored receipt that reads back reads back the same later. -/
theorem Later.receiptIn {operation : OperationId} {row : PublicationRow Id}
    (hrow : r.publications.get? operation = some row) :
    Stable (r.receiptIn operation row) (r'.receiptIn operation row) := by
  unfold Repository.receiptIn
  refine (h.layerHeadIn _ _).bind (fun expected _ => Stable.bind (.refl _) (fun _ _ => ?_))
  refine (h.worldAt hc hc' _).bind (fun against hagainst => ?_)
  have hag := (worldAt_eq_ok hc).mp hagainst
  have hnum := hc.contiguous _ _ hag
  refine (h.checkpointIn hc hc' _).bind (fun checkpoint _ => Stable.bind (.refl _) (fun _ _ => ?_))
  refine (h.warningsIn _).bind (fun warnings _ => (h.observedIn hc hc' _ _).bind (fun observed _ => ?_))
  refine Stable.bind (Stable.refuse (h.ignoresTerminal hag)) (fun _ _ => ?_)
  refine (h.outcomeIn hc hc' hrow (hnum ▸ hag) _).bind (fun outcome _ => ?_)
  exact (h.objects.readBlob _).bind (fun _ _ => .refl _)

end chain

end reads

end Repository

end Javelin
