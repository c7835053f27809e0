import Javelin.System

/-! # Attribution

`attributionIn` folds a Layer's whole history: each path of the head delta with its entry and the
checkpoint and provenance that last set it.  `layerPaths` holds the same incrementally: tracking a
new head is one step of the fold (`trackedIn_trackIn`).  `checkRadar` and `checkBlame` compare the
stored rows with the fold. -/

namespace Javelin

open KeyedList

variable {Id : Type} [LinearOrder Id] [Encoding Id]

/-! ### The checks -/

/-- One path of a head: what last set it, given what the heads before left. -/
def attributePath (checkpoint : LayerCheckpoint Id)
    (state : SortedMap RepoPath (Tracked Id) × SortedMap RepoPath (Tracked Id))
    (change : RepoPath × Option (FileEntry Id)) :
    SortedMap RepoPath (Tracked Id) × SortedMap RepoPath (Tracked Id) :=
  let origin : Id × Option Id :=
    match state.1.get? change.1 with
    | some before =>
        if before.entry = change.2 then (before.checkpoint, before.provenance)
        else (checkpoint.id, checkpoint.provenance)
    | none => (checkpoint.id, checkpoint.provenance)
  (state.1.erase change.1, state.2.insert change.1 ⟨change.2, origin.1, origin.2⟩)

/-- The attribution after one more head. -/
def attributeHead (attribution : SortedMap RepoPath (Tracked Id)) (checkpoint : LayerCheckpoint Id) :
    SortedMap RepoPath (Tracked Id) :=
  (checkpoint.changes.entries.toList.foldl (attributePath checkpoint) (attribution, SortedMap.empty)).2

namespace Repository
variable (r : Repository Id)

/-- One revision of the fold. -/
def attributeRevision (read : Id → Except (Error Id) (LayerCheckpoint Id)) (layer : LayerId)
    (attribution : SortedMap RepoPath (Tracked Id)) (revision : ℕ) :
    Except (Error Id) (SortedMap RepoPath (Tracked Id)) := do
  let event ← r.eventIn layer revision
  let checkpoint ← read event.checkpoint
  return attributeHead attribution checkpoint

/-- Per-path attribution of a Layer's head at `revision`, from its history. -/
def attributionIn (read : Id → Except (Error Id) (LayerCheckpoint Id)) (layer : LayerId)
    (revision : ℕ) : Except (Error Id) (SortedMap RepoPath (Tracked Id)) :=
  (List.range (revision + 1)).foldlM (r.attributeRevision read layer) SortedMap.empty

/-- The rows that a Layer must have in the index. -/
def derivedIn (layer : LayerId) : Except (Error Id) (SortedMap RepoPath (Tracked Id)) := do
  match ← r.layerStateIn layer with
  | .active head => r.attributionIn r.readDeep layer head.revision
  | _ => return SortedMap.empty

/-- One Layer of `check_radar`; counts the rows it expects. -/
def checkTracked (expected : ℕ) (layer : LayerId) : Except (Error Id) ℕ := do
  let derived ← r.derivedIn layer
  let tracked := r.trackedIn layer
  refuse (tracked.toList.length ≠ derived.toList.length ∨
    derived.toList.any (fun e => decide (tracked.get? e.1 ≠ some e.2)) = true)
    (corrupt "Layer path index disagrees with Layer")
  return expected + derived.toList.length

/-- The Layers that have an event. -/
def layers : List LayerId := r.layerHeads.keys.filter (fun layer => decide ((r.events layer).toList ≠ []))

/-- Rebuilds the index, attribution included, and compares it with the stored rows. -/
def checkRadar : Except (Error Id) Unit := do
  let expected ← r.layers.foldlM r.checkTracked 0
  let rows := (r.layerPaths.toList.map (fun e => e.2.toList.length)).sum
  refuse (rows ≠ expected) (corrupt "Layer path index names an unknown Layer")

/-- The blame row of one path of a published version. -/
def checkBlamed (derived : SortedMap RepoPath (Tracked Id)) (stored : SortedMap RepoPath (BlameRow Id))
    (path : RepoPath) : Except (Error Id) Unit :=
  match derived.get? path with
  | none => throw (corrupt "published path has no Layer attribution")
  | some t =>
      refuse (stored.get? path ≠ some ⟨t.checkpoint, t.provenance⟩)
        (corrupt "blame disagrees with Layer history")

/-- One successful publication of `check_blame`; counts the rows it expects. -/
def checkPublished (expected : ℕ) (row : PublicationRow Id) : Except (Error Id) ℕ :=
  match row.result with
  | none => throw (.storage "Invalid column type Null")
  | some version => do
      let derived ← r.attributionIn r.readDeep row.layer row.expected
      let changes ← r.changesetIn version
      changes.entries.keys.forM (checkBlamed derived ((r.blame.get? version).getD SortedMap.empty))
      return expected + changes.entries.toList.length

/-- The successful publications in the order of their versions. -/
def successes : List (PublicationRow Id) :=
  ((r.publications.toList.map Prod.snd).filter (fun row => row.outcome = .published)).mergeSort
    (fun a b => decide (a.result.getD 0 ≤ b.result.getD 0))

/-- Rebuilds every successful publication's attribution and compares it with the stored rows. -/
def checkBlame : Except (Error Id) Unit := do
  let expected ← r.successes.foldlM r.checkPublished 0
  let rows := (r.blame.toList.map (fun e => e.2.toList.length)).sum
  refuse (rows ≠ expected) (corrupt "blame names an unpublished change")

end Repository

/-! ### One step of the fold -/

/-- What a path of a head is attributed to. -/
def origin (before : Option (Tracked Id)) (id : Id) (provenance : Option Id)
    (entry : Option (FileEntry Id)) : Tracked Id :=
  match before with
  | some t => if t.entry = entry then t else ⟨entry, id, provenance⟩
  | none => ⟨entry, id, provenance⟩

section folds
variable {α K V : Type} [LinearOrder K]

omit [LinearOrder Id] [Encoding Id] in
/-- A fold that takes each key of a list out of one map and sets it in another.  `P` relates the
two maps at the keys to come. -/
theorem get?_foldl_take {f : SortedMap K V × SortedMap K V → K × α → SortedMap K V × SortedMap K V}
    {g : Option V → α → V} {P : Option V → Option V → Prop}
    (hf : ∀ s c k, (f s c).1.get? k = if c.1 = k then none else s.1.get? k)
    (hg : ∀ s c, P (s.1.get? c.1) (s.2.get? c.1) → ∀ k, (f s c).2.get? k =
      if c.1 = k then some (g (s.1.get? c.1) c.2) else s.2.get? k)
    {l : List (K × α)} (hn : (l.map Prod.fst).Nodup) (s : SortedMap K V × SortedMap K V)
    (hs : ∀ c ∈ l, P (s.1.get? c.1) (s.2.get? c.1)) (k : K) :
    match KeyedList.lookup Prod.fst k l with
    | some c => (l.foldl f s).1.get? k = none ∧ (l.foldl f s).2.get? k = some (g (s.1.get? k) c.2)
    | none => (l.foldl f s).1.get? k = s.1.get? k ∧ (l.foldl f s).2.get? k = s.2.get? k := by
  induction l generalizing s with
  | nil => exact ⟨rfl, rfl⟩
  | cons c l ih =>
      rw [List.map_cons, List.nodup_cons] at hn
      have hc := hg s c (hs c List.mem_cons_self)
      have hne : ∀ c' ∈ l, c.1 ≠ c'.1 := fun c' hc' he => hn.1 (he ▸ List.mem_map_of_mem hc')
      have hrest : ∀ c' ∈ l, P ((f s c).1.get? c'.1) ((f s c).2.get? c'.1) := by
        intro c' hc'
        rw [hc, hf, if_neg (hne c' hc'), if_neg (hne c' hc')]
        exact hs c' (List.mem_cons_of_mem _ hc')
      have hind := ih hn.2 (f s c) hrest
      rw [hf, hc] at hind
      rw [List.foldl_cons, KeyedList.lookup_cons]
      by_cases hk : c.1 = k
      · subst hk
        have hnone : KeyedList.lookup Prod.fst c.1 l = none := by
          rw [KeyedList.lookup_eq_none]
          exact fun a ha => Ne.symm (hne a ha)
        rw [hnone, if_pos rfl, if_pos rfl] at hind
        rw [if_pos rfl]
        exact hind
      · rw [if_neg hk, if_neg hk] at hind
        rw [if_neg hk]
        exact hind

end folds

omit [Encoding Id] in
/-- The attribution of one more head, path by path. -/
theorem get?_attributeHead (attribution : SortedMap RepoPath (Tracked Id))
    (checkpoint : LayerCheckpoint Id) (p : RepoPath) :
    (attributeHead attribution checkpoint).get? p = (checkpoint.changes.entries.get? p).map
      (origin (attribution.get? p) checkpoint.id checkpoint.provenance) := by
  have hg : ∀ (s : SortedMap RepoPath (Tracked Id) × SortedMap RepoPath (Tracked Id))
      (c : RepoPath × Option (FileEntry Id)), True → ∀ k, (attributePath checkpoint s c).2.get? k =
        if c.1 = k then some (origin (s.1.get? c.1) checkpoint.id checkpoint.provenance c.2)
        else s.2.get? k := by
    intro s c _ k
    unfold attributePath origin
    cases s.1.get? c.1 with
    | none => exact SortedMap.get?_insert ..
    | some t =>
        by_cases he : t.entry = c.2
        · simp only [he, if_true]
          rw [SortedMap.get?_insert, ← he]
        · simp only [he, if_false]
          exact SortedMap.get?_insert ..
  have hfold := get?_foldl_take (f := attributePath checkpoint)
    (g := fun before => origin before checkpoint.id checkpoint.provenance) (P := fun _ _ => True)
    (fun s c k => SortedMap.get?_erase s.1 c.1 k) hg checkpoint.changes.entries.keys_nodup
    (attribution, SortedMap.empty) (fun _ _ => trivial) p
  unfold attributeHead
  unfold SortedMap.get? at hfold ⊢
  cases hl : KeyedList.lookup Prod.fst p checkpoint.changes.entries.toList with
  | none =>
      rw [hl] at hfold
      exact hfold.2
  | some c =>
      rw [hl] at hfold
      exact hfold.2

omit [LinearOrder Id] [Encoding Id] in
theorem get?_foldl_erase {K V : Type} [LinearOrder K] {l : List K} {m : SortedMap K V} {k : K} :
    (l.foldl SortedMap.erase m).get? k = if k ∈ l then none else m.get? k := by
  induction l generalizing m with
  | nil => simp
  | cons a l ih =>
      rw [List.foldl_cons, ih, SortedMap.get?_erase]
      by_cases hk : k ∈ l
      · simp [hk]
      · by_cases ha : a = k
        · simp [ha]
        · simp [hk, ha, Ne.symm ha]

namespace Repository
variable {r r' : Repository Id} {S S' : VersionNumber → Manifest Id}

omit [Encoding Id] in
/-- Tracking a new head is one step of the fold. -/
theorem get?_trackedIn_trackIn {layer layer' : LayerId} {head : LayerCandidate Id} {p : RepoPath} :
    ((r.trackIn layer head).trackedIn layer').get? p = if layer = layer' then
      (head.changes.entries.get? p).map (origin ((r.trackedIn layer).get? p) head.id head.provenance)
    else (r.trackedIn layer').get? p := by
  have hg : ∀ (s : SortedMap RepoPath (Tracked Id) × SortedMap RepoPath (Tracked Id))
      (c : RepoPath × Option (FileEntry Id)), s.2.get? c.1 = s.1.get? c.1 → ∀ k,
        (upsert head s c).2.get? k = if c.1 = k then
          some (origin (s.1.get? c.1) head.id head.provenance c.2) else s.2.get? k := by
    intro s c hs k
    unfold upsert origin
    cases hget : s.1.get? c.1 with
    | none => exact SortedMap.get?_insert ..
    | some t =>
        by_cases he : t.entry = c.2
        · simp only [he, if_true]
          by_cases hk : c.1 = k
          · subst hk
            rw [if_pos rfl, hs, hget]
          · rw [if_neg hk]
        · simp only [he, if_false]
          exact SortedMap.get?_insert ..
  have hfold := get?_foldl_take (f := upsert head)
    (g := fun before => origin before head.id head.provenance) (P := fun a b => b = a)
    (fun s c k => SortedMap.get?_erase s.1 c.1 k) hg head.changes.entries.keys_nodup
    (r.trackedIn layer, r.trackedIn layer) (fun _ _ => rfl) p
  unfold trackIn
  by_cases hlayer : layer = layer'
  · subst hlayer
    rw [if_pos rfl]
    have hself : ∀ rows : SortedMap RepoPath (Tracked Id),
        ({ r with layerPaths := r.layerPaths.insert layer rows }).trackedIn layer = rows := by
      intro rows
      unfold trackedIn
      simp only [SortedMap.get?_insert, if_true]
      rfl
    have hchange : head.changes.entries.get? p =
        (KeyedList.lookup Prod.fst p head.changes.entries.toList).map Prod.snd := rfl
    rw [hself, get?_foldl_erase, hchange]
    simp only [SortedMap.mem_keys]
    cases hl : KeyedList.lookup Prod.fst p head.changes.entries.toList with
    | none =>
        rw [hl] at hfold
        rw [hfold.1, hfold.2]
        cases (r.trackedIn layer).get? p <;> simp
    | some c =>
        rw [hl] at hfold
        rw [hfold.1, hfold.2]
        simp
  · rw [if_neg hlayer]
    unfold trackedIn
    simp only [SortedMap.get?_insert, if_neg hlayer]

end Repository

end Javelin
