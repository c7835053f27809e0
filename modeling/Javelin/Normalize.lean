import Javelin.Height

/-! # Normalization

`normalize` validates a delta against the snapshot of `base` and drops no-op entries.  It reads
the snapshot through a `WorldIndex`; `Answers` says that an index is exact for a snapshot.

The result is the difference between the snapshot and the snapshot overwritten by the delta, and
the refusals are `Ambiguous` deletions and overwritten snapshots that are not prefix-free
(`post_normalize`).  The three checks of an added path cover every collision
(`prefixFree_of_checked`). -/

namespace Javelin

open KeyedList Trees

variable {σ Id : Type} [DecidableEq Id]

/-! ### The operation -/

/-- Point reads over one immutable World snapshot. -/
structure WorldIndex (σ Id : Type) where
  /-- The file entry at a path in the snapshot of a version. -/
  entryAt : RepoPath → VersionNumber → TreesM σ Id (Option (FileEntry Id))
  /-- Whether a path has live descendants at a version. -/
  isDir : RepoPath → VersionNumber → TreesM σ Id Bool
  /-- Every file strictly below a path at a version. -/
  filesUnder : RepoPath → VersionNumber → TreesM σ Id (List RepoPath)
  /-- Validates a new entry's referenced content. -/
  checkEntry : FileEntry Id → TreesM σ Id Unit

namespace WorldIndex

/-- Whether a changeset adds a path strictly below this one. -/
def addsBelow (delta : DiffMap Id) (path : RepoPath) : Bool :=
  delta.toList.any (fun e => path.inDescendantRange e.1 && e.2.isSome)

def ambiguous : Error Id :=
  .invalidInput "directory-prefix tombstone is ambiguous; delete exact entries"

def collide : Error Id := .invalidInput "file and descendant paths collide"

variable (index : WorldIndex σ Id) (base : VersionNumber)

/-- Validates the new entry of a change, if there is one. -/
def checkNew : Option (FileEntry Id) → TreesM σ Id Unit
  | some entry => index.checkEntry entry
  | none => return ()

/-- Refuses to delete a path that is no file while something is or comes below it. -/
def refuseAmbiguous (changes : SparseChanges Id) (path : RepoPath)
    (before after : Option (FileEntry Id)) : TreesM σ Id Unit :=
  if after = none ∧ before = none then
    if addsBelow changes.entries path then throw ambiguous
    else do if ← index.isDir path base then throw ambiguous else return ()
  else return ()

/-- The first loop: one change against the base. -/
def normalizeEntry (changes : SparseChanges Id) (delta : DiffMap Id)
    (change : RepoPath × Option (FileEntry Id)) : TreesM σ Id (DiffMap Id) := do
  index.checkNew change.2
  let before ← index.entryAt change.1 base
  index.refuseAmbiguous base changes change.1 before change.2
  return if before = change.2 then delta else delta.insert change.1 change.2

/-- Whether `path` is a file after the delta. -/
def liveAfter (delta : DiffMap Id) (path : RepoPath) : TreesM σ Id Bool :=
  match delta.get? path with
  | some after => return after.isSome
  | none => do return (← index.entryAt path base).isSome

/-- A file replacing a directory must delete every file below it. -/
def checkReplaced (delta : DiffMap Id) (path : RepoPath) : TreesM σ Id Unit := do
  if ← index.isDir path base then
    (← index.filesUnder path base).forM (fun child =>
      if delta.get? child = none then throw collide else return ())
  else return ()

/-- The second loop: an added path meets no file above it and none below it. -/
def checkAdded (delta : DiffMap Id) (path : RepoPath) : TreesM σ Id Unit := do
  path.ancestors.forM (fun ancestor => do
    if ← index.liveAfter base delta ancestor then throw collide else return ())
  if addsBelow delta path then throw collide else index.checkReplaced base delta path

/-- Validates a delta against the snapshot of `base` and drops no-op entries. -/
def normalize (changes : SparseChanges Id) : TreesM σ Id (SparseChanges Id) := do
  let delta ← changes.entries.toList.foldlM (index.normalizeEntry base changes) SortedMap.empty
  delta.toList.forM (fun e => if e.2 = none then return () else index.checkAdded base delta e.1)
  SparseChanges.ofMap delta

end WorldIndex

/-! ### Refusals -/

/-- A deletion of a path that is no file, with something below it or added below it. -/
def Ambiguous {V : Type} (S : Flat V) (c : Flat (Option V)) : Prop :=
  ∃ p, p ≠ [] ∧ c p = some none ∧ S p = none ∧
    ∃ q, q ≠ [] ∧ (S (p ++ q) ≠ none ∨ ∃ e, c (p ++ q) = some (some e))

/-- What the second loop finds of a delta `D` against `S`, at one path. -/
structure Checked {V : Type} (S : Flat V) (D : Flat (Option V)) (p : List Name) : Prop where
  above : ∀ a q, a ≠ [] → q ≠ [] → p = a ++ q → S.over D a = none
  added : ∀ q e, q ≠ [] → D (p ++ q) ≠ some (some e)
  replaced : ∀ q, q ≠ [] → S (p ++ q) ≠ none → D (p ++ q) ≠ none

/-- If every added path is checked, no file has a descendant. -/
theorem prefixFree_of_checked {V : Type} {S : Flat V} {D : Flat (Option V)} (hS : S.PrefixFree)
    (h : ∀ p e, p ≠ [] → D p = some (some e) → Checked S D p) : (S.over D).PrefixFree := by
  intro p hp hs
  rintro ⟨q, hq, hsq⟩
  have hpq : p ++ q ≠ [] := by simp [hp]
  match hDq : D (p ++ q) with
  | some (some e) =>
      exact hs ((h _ e hpq hDq).above p q hp hq rfl)
  | some none =>
      rw [Flat.over_of_some hDq] at hsq
      exact hsq rfl
  | none =>
      rw [Flat.over_of_none hDq] at hsq
      match hD : D p with
      | some (some e) => exact (h p e hp hD).replaced q hq hsq hDq
      | some none =>
          rw [Flat.over_of_some hD] at hs
          exact hs rfl
      | none =>
          rw [Flat.over_of_none hD] at hs
          exact hS p hp hs ⟨q, hq, hsq⟩

/-- In a prefix-free result every added path is checked. -/
theorem checked_of_prefixFree {V : Type} {S : Flat V} {D : Flat (Option V)}
    (h : (S.over D).PrefixFree) {p : List Name} {e : V} (hp : p ≠ []) (hD : D p = some (some e)) :
    Checked S D p := by
  have hs : S.over D p ≠ none := by
    rw [Flat.over_of_some hD]
    simp
  refine ⟨?_, ?_, ?_⟩
  · rintro a q ha hq rfl
    by_contra hne
    exact h a ha hne ⟨q, hq, hs⟩
  · intro q e' hq hDq
    refine h p hp hs ⟨q, hq, ?_⟩
    rw [Flat.over_of_some hDq]
    simp
  · intro q hq hsq hDq
    refine h p hp hs ⟨q, hq, ?_⟩
    rw [Flat.over_of_none hDq]
    exact hsq

/-! ### The first loop -/

omit [DecidableEq Id] in
/-- Whether a map adds a path below `p`. -/
theorem WorldIndex.addsBelow_iff {delta : DiffMap Id} {p : RepoPath} (hp : p.names ≠ []) :
    addsBelow delta p = true ↔ ∃ q e, q ≠ [] ∧ mapFlat delta (p.names ++ q) = some (some e) := by
  unfold addsBelow
  rw [List.any_eq_true]
  constructor
  · rintro ⟨⟨k, a⟩, hk, hand⟩
    rw [Bool.and_eq_true, RepoPath.inDescendantRange_iff hp] at hand
    obtain ⟨⟨q, hq, hkq⟩, ha⟩ := hand
    obtain ⟨e, rfl⟩ := Option.isSome_iff_exists.mp ha
    refine ⟨q, e, hq, ?_⟩
    rw [← hkq]
    exact SortedMap.get?_eq_some.mpr hk
  · rintro ⟨q, e, hq, hget⟩
    refine ⟨(⟨p.names ++ q⟩, some e), SortedMap.get?_eq_some.mp hget, ?_⟩
    rw [Bool.and_eq_true, RepoPath.inDescendantRange_iff hp]
    exact ⟨⟨q, hq, rfl⟩, rfl⟩

variable [Hashing Id] [Store σ Id] [LawfulStore σ Id]

/-- The index is exact for the snapshot `S`, and accepts the entries of `Valid`. -/
structure WorldIndex.Answers (E : Chunk Id → Prop) (index : WorldIndex σ Id) (base : VersionNumber)
    (S : Flat (FileEntry Id)) (Valid : FileEntry Id → Prop) (t : Trees σ Id) : Prop where
  coherent : t.Coherent
  entryAt : ∀ t', Trees.Step E t t' → ∀ p : RepoPath, p.names ≠ [] →
    Runs E (index.entryAt p base) t' (S p.names)
  isDir : ∀ t', Trees.Step E t t' → ∀ p : RepoPath, p.names ≠ [] →
    Post E (index.isDir p base) t' (fun b _ => b = true ↔ S.Below p.names) (fun _ => False)
  filesUnder : ∀ t', Trees.Step E t t' → ∀ p : RepoPath, p.names ≠ [] →
    Post E (index.filesUnder p base) t'
      (fun l _ => ∀ q, q ∈ l ↔ ∃ r, r ≠ [] ∧ q = ⟨p.names ++ r⟩ ∧ S (p.names ++ r) ≠ none)
      (fun _ => False)
  checkEntry : ∀ t', Trees.Step E t t' → ∀ e,
    Post E (index.checkEntry e) t' (fun _ _ => Valid e) (fun _ => ¬ Valid e)

namespace WorldIndex
variable {index : WorldIndex σ Id} {base : VersionNumber} {S : Flat (FileEntry Id)}
  {Valid : FileEntry Id → Prop} {E : Chunk Id → Prop} {t : Trees σ Id} {c : SparseChanges Id}

theorem Answers.step {t' : Trees σ Id} (h : index.Answers E base S Valid t) (hs : Trees.Step E t t') :
    index.Answers E base S Valid t' where
  coherent := hs.coherent
  entryAt := fun t'' hs' => h.entryAt t'' (hs.trans hs')
  isDir := fun t'' hs' => h.isDir t'' (hs.trans hs')
  filesUnder := fun t'' hs' => h.filesUnder t'' (hs.trans hs')
  checkEntry := fun t'' hs' => h.checkEntry t'' (hs.trans hs')

/-- Why a delta is refused: an entry is not valid, a deletion is ambiguous, or a file and a
descendant collide. -/
def Fails (S : Flat (FileEntry Id)) (Valid : FileEntry Id → Prop) (c : SparseChanges Id)
    (e : Error Id) : Prop :=
  (∃ p x, c.flat p = some (some x) ∧ ¬ Valid x) ∨
    ((∃ text, e = .invalidInput text) ∧ (Ambiguous S c.flat ∨ ¬ (S.over c.flat).PrefixFree))

/-- What the first loop finds of one change. -/
structure Fine (S : Flat (FileEntry Id)) (Valid : FileEntry Id → Prop) (c : SparseChanges Id)
    (p : RepoPath) (after : Option (FileEntry Id)) : Prop where
  valid : ∀ x, after = some x → Valid x
  clear : ¬ (after = none ∧ S p.names = none ∧
    ∃ q, q ≠ [] ∧ (S (p.names ++ q) ≠ none ∨ ∃ e, c.flat (p.names ++ q) = some (some e)))

theorem post_refuseAmbiguous (h : index.Answers E base S Valid t) {p : RepoPath}
    (hp : p.names ≠ []) {after : Option (FileEntry Id)} (hc : c.flat p.names = some after) :
    Post E (index.refuseAmbiguous base c p (S p.names) after) t
      (fun _ _ => ¬ (after = none ∧ S p.names = none ∧
        ∃ q, q ≠ [] ∧ (S (p.names ++ q) ≠ none ∨ ∃ e, c.flat (p.names ++ q) = some (some e))))
      (Fails S Valid c) := by
  unfold refuseAmbiguous
  by_cases hnone : after = none ∧ S p.names = none
  · rw [if_pos hnone]
    obtain ⟨rfl, hs⟩ := hnone
    have hfail : (∃ q, q ≠ [] ∧ (S (p.names ++ q) ≠ none ∨ ∃ e, c.flat (p.names ++ q) = some (some e))) →
        Fails S Valid c ambiguous := fun hex => Or.inr ⟨⟨_, rfl⟩, Or.inl ⟨p.names, hp, hc, hs, hex⟩⟩
    by_cases hadds : addsBelow c.entries p = true
    · rw [if_pos hadds]
      obtain ⟨q, e, hq, hqe⟩ := (addsBelow_iff hp).mp hadds
      exact Post.throw (hfail ⟨q, hq, Or.inr ⟨e, hqe⟩⟩)
    · rw [if_neg hadds]
      refine Post.bind (Post.mono (h.isDir t (Step.refl h.coherent) p hp) (fun _ _ _ hb => hb)
        (fun _ hf => hf.elim)) ?_
      intro b t₁ hs₁ hb
      by_cases hbelow : b = true
      · rw [if_pos hbelow]
        obtain ⟨q, hq, hsq⟩ := hb.mp hbelow
        exact Post.throw (hfail ⟨q, hq, Or.inl hsq⟩)
      · rw [if_neg hbelow]
        refine Post.pure hs₁.coherent ?_
        rintro ⟨_, _, q, hq, hsq | ⟨e, he⟩⟩
        · exact hbelow (hb.mpr ⟨q, hq, hsq⟩)
        · exact hadds ((addsBelow_iff hp).mpr ⟨q, e, hq, he⟩)
  · rw [if_neg hnone]
    exact Post.pure h.coherent (fun hh => hnone ⟨hh.1, hh.2.1⟩)

/-- The first loop at one change. -/
theorem post_normalizeEntry (h : index.Answers E base S Valid t) {p : RepoPath}
    (hp : p.names ≠ []) {after : Option (FileEntry Id)} (hc : c.flat p.names = some after)
    (delta : DiffMap Id) :
    Post E (index.normalizeEntry base c delta (p, after)) t
      (fun delta' _ => Fine S Valid c p after ∧
        delta' = if S p.names = after then delta else delta.insert p after) (Fails S Valid c) := by
  unfold normalizeEntry
  have hnew : Post E (index.checkNew after) t (fun _ _ => ∀ x, after = some x → Valid x)
      (Fails S Valid c) := by
    cases after with
    | none => exact Post.pure h.coherent (by simp)
    | some x =>
        refine Post.mono (h.checkEntry t (Step.refl h.coherent) x) ?_ ?_
        · rintro _ _ _ hx y ⟨⟩
          exact hx
        · exact fun e hx => Or.inl ⟨p.names, x, hc, hx⟩
  refine Post.bind hnew ?_
  intro _ t₁ hs₁ hvalid
  refine Runs.bind_post (h.entryAt t₁ hs₁ p hp) ?_
  intro t₂ hs₂
  refine Post.bind (post_refuseAmbiguous (h.step (hs₁.trans hs₂)) hp hc) ?_
  intro _ t₃ hs₃ hclear
  exact Post.pure hs₃.coherent ⟨⟨hvalid, hclear⟩, rfl⟩

omit [Hashing Id] [Store σ Id] [LawfulStore σ Id] in
/-- The changes that change something. -/
theorem filter_eq_diff (c : SparseChanges Id) (p : List Name) :
    (c.flat p).filter (fun a => decide (S p ≠ a)) = Flat.diff S (S.over c.flat) p := by
  unfold Flat.diff
  cases hc : c.flat p with
  | none => rw [Flat.over_of_none hc]; simp
  | some a =>
      rw [Flat.over_of_some hc]
      by_cases h : S p = a <;> simp [h]

/-- The first loop keeps the changes that change something. -/
theorem post_entries (h : index.Answers E base S Valid t) :
    Post E (c.entries.toList.foldlM (index.normalizeEntry base c) SortedMap.empty) t
      (fun delta _ => (∀ e ∈ c.entries.toList, Fine S Valid c e.1 e.2) ∧
        mapFlat delta = Flat.diff S (S.over c.flat)) (Fails S Valid c) := by
  have hasc : Ascending Prod.fst c.entries.toList := c.entries.ascending
  refine Post.mono (Post.foldlM (I := fun done delta => (∀ e ∈ done, Fine S Valid c e.1 e.2) ∧
    ∀ k, delta.get? k = ((KeyedList.lookup Prod.fst k done).map Prod.snd).filter
      (fun a => decide (S k.names ≠ a))) h.coherent ⟨by simp, fun k => rfl⟩ ?_) ?_ (fun _ h => h)
  · rintro done ⟨p, after⟩ rest hl delta t₁ hs₁ ⟨hfine, hget⟩
    have hm : (p, after) ∈ c.entries.toList := by
      rw [hl]
      simp
    have hp : p.names ≠ [] := (c.valid p (List.mem_map_of_mem hm)).1
    have hc : c.flat p.names = some after := SortedMap.get?_eq_some.mpr hm
    have hnot : KeyedList.lookup Prod.fst p done = none := by
      rw [hl, ascending_append] at hasc
      exact lookup_eq_none_of_gt (fun a ha => hasc.2.2 a ha _ List.mem_cons_self)
    refine Post.mono (post_normalizeEntry (h.step hs₁) hp hc delta) ?_ (fun _ h => h)
    rintro delta' _ _ ⟨hone, rfl⟩
    refine ⟨?_, fun k => ?_⟩
    · intro e he
      rcases List.mem_append.mp he with he | he
      · exact hfine e he
      · rw [List.mem_singleton.mp he]
        exact hone
    · rw [lookup_append, lookup_cons]
      by_cases hk : p = k
      · subst hk
        have hold := hget p
        rw [hnot] at hold ⊢
        by_cases hsame : S p.names = after
        · rw [if_pos hsame, hold]
          simp [Option.filter, hsame]
        · rw [if_neg hsame, SortedMap.get?_insert]
          simp [Option.filter, hsame]
      · have hother : (if S p.names = after then delta else delta.insert p after).get? k =
            delta.get? k := by
          split
          · rfl
          · rw [SortedMap.get?_insert, if_neg hk]
        rw [hother, hget k, if_neg hk, lookup_nil, Option.or_none]
  · rintro delta _ _ ⟨hfine, hget⟩
    refine ⟨hfine, funext (fun p => ?_)⟩
    rw [← filter_eq_diff]
    exact hget ⟨p⟩

/-! ### The second loop -/

theorem post_liveAfter (h : index.Answers E base S Valid t) {delta : DiffMap Id} {p : RepoPath}
    (hp : p.names ≠ []) : Runs E (index.liveAfter base delta p) t
      (S.over (mapFlat delta) p.names).isSome := by
  have hget : delta.get? p = mapFlat delta p.names := rfl
  unfold liveAfter
  rw [hget]
  cases hd : mapFlat delta p.names with
  | some after =>
      rw [Flat.over_of_some hd]
      exact Runs.pure h.coherent _
  | none =>
      rw [Flat.over_of_none hd]
      refine Runs.bind (h.entryAt t (Step.refl h.coherent) p hp) ?_
      exact fun t' hs => Runs.pure hs.coherent _

/-- The second loop at one added path finds a collision or none. -/
theorem post_checkAdded (h : index.Answers E base S Valid t) {delta : DiffMap Id} {p : RepoPath}
    {x : FileEntry Id} (hp : p.names ≠ []) (hd : mapFlat delta p.names = some (some x)) :
    Post E (index.checkAdded base delta p) t (fun _ _ => Checked S (mapFlat delta) p.names)
      (fun e => e = collide ∧ ¬ (S.over (mapFlat delta)).PrefixFree) := by
  have hfail : ¬ Checked S (mapFlat delta) p.names →
      (collide : Error Id) = collide ∧ ¬ (S.over (mapFlat delta)).PrefixFree :=
    fun hno => ⟨rfl, fun hfree => hno (checked_of_prefixFree hfree hp hd)⟩
  unfold checkAdded
  have habove : Post E (p.ancestors.forM (fun ancestor => do
      if ← index.liveAfter base delta ancestor then throw collide else return ())) t
      (fun _ _ => ∀ a ∈ p.ancestors, S.over (mapFlat delta) a.names = none)
      (fun e => e = collide ∧ ¬ (S.over (mapFlat delta)).PrefixFree) := by
    apply Post.forM h.coherent
    intro a ha t₁ hs₁
    obtain ⟨hne, q, hq, hpa⟩ := RepoPath.mem_ancestors.mp ha
    refine Runs.bind_post (post_liveAfter (h.step hs₁) hne) ?_
    intro t₂ hs₂
    cases hlive : S.over (mapFlat delta) a.names with
    | none => exact Post.pure hs₂.coherent rfl
    | some y =>
        refine Post.throw (hfail (fun hck => ?_))
        have hnone := hck.above a.names q hne hq hpa
        rw [hlive] at hnone
        cases hnone
  refine Post.bind habove ?_
  intro _ t₁ hs₁ hanc
  by_cases hadds : addsBelow delta p = true
  · rw [if_pos hadds]
    obtain ⟨q, e, hq, hqe⟩ := (addsBelow_iff hp).mp hadds
    exact Post.throw (hfail (fun hck => hck.added q e hq hqe))
  · rw [if_neg hadds]
    have hdone : (∀ q, q ≠ [] → S (p.names ++ q) ≠ none → mapFlat delta (p.names ++ q) ≠ none) →
        Checked S (mapFlat delta) p.names := by
      intro hrep
      refine ⟨?_, ?_, hrep⟩
      · intro a q ha hq hpa
        exact hanc ⟨a⟩ (RepoPath.mem_ancestors.mpr ⟨ha, q, hq, hpa⟩)
      · exact fun q e hq hqe => hadds ((addsBelow_iff hp).mpr ⟨q, e, hq, hqe⟩)
    unfold checkReplaced
    refine Post.bind (Post.mono ((h.step hs₁).isDir t₁ (Step.refl hs₁.coherent) p hp)
      (fun _ _ _ hb => hb) (fun _ hf => hf.elim)) ?_
    intro b t₂ hs₂ hb
    by_cases hbelow : b = true
    · rw [if_pos hbelow]
      refine Post.bind (Post.mono ((h.step hs₁).filesUnder t₂ hs₂ p hp) (fun _ _ _ hl => hl)
        (fun _ hf => hf.elim)) ?_
      intro l t₃ hs₃ hl
      refine Post.mono (Post.forM (P := fun child => delta.get? child ≠ none) hs₃.coherent ?_) ?_
        (fun _ h => h)
      · intro child hchild t₄ hs₄
        obtain ⟨r, hr, rfl, hsr⟩ := (hl child).mp hchild
        by_cases hkept : delta.get? ⟨p.names ++ r⟩ = none
        · rw [if_pos hkept]
          exact Post.throw (hfail (fun hck => hck.replaced r hr hsr hkept))
        · rw [if_neg hkept]
          exact Post.pure hs₄.coherent hkept
      · intro _ _ _ hall
        exact hdone (fun q hq hsq => hall ⟨p.names ++ q⟩ ((hl _).mpr ⟨q, hq, rfl, hsq⟩))
    · rw [if_neg hbelow]
      refine Post.pure hs₂.coherent (hdone (fun q hq hsq => ?_))
      exact absurd (hb.mpr ⟨q, hq, hsq⟩) hbelow

/-- `normalize` returns the difference the changes make, or refuses. -/
theorem post_normalize (hS : S.PrefixFree) (h : index.Answers E base S Valid t) :
    Post E (index.normalize base c) t
      (fun d _ => (∀ p x, c.flat p = some (some x) → Valid x) ∧ ¬ Ambiguous S c.flat ∧
        (S.over c.flat).PrefixFree ∧ d.flat = Flat.diff S (S.over c.flat)) (Fails S Valid c) := by
  unfold normalize
  refine Post.bind (post_entries h) ?_
  rintro delta t₁ hs₁ ⟨hfine, hflat⟩
  have hover : S.over (mapFlat delta) = S.over c.flat := by
    rw [hflat, Flat.over_diff]
  have hmem : ∀ p a, c.flat p = some a → ((⟨p⟩ : RepoPath), a) ∈ c.entries.toList :=
    fun p a hc => SortedMap.get?_eq_some.mp hc
  have hvalid : ∀ p ∈ delta.keys, p.Valid := by
    intro p hp
    have hne : mapFlat delta p.names ≠ none :=
      Option.isSome_iff_ne_none.mp (SortedMap.mem_keys.mp hp)
    rw [hflat, ← filter_eq_diff] at hne
    exact SparseChanges.valid_of_flat (c := c) (fun hc => hne (by rw [hc]; rfl))
  refine Post.bind (Q := fun _ _ => ∀ e ∈ delta.toList, e.2 ≠ none → Checked S (mapFlat delta) e.1.names)
    ?_ ?_
  · apply Post.forM hs₁.coherent
    rintro ⟨p, after⟩ he t₂ hs₂
    have hp := (hvalid p (List.mem_map_of_mem he)).1
    have hget : mapFlat delta p.names = some after := SortedMap.get?_eq_some.mpr he
    cases after with
    | none => exact Post.pure hs₂.coherent (fun hne => absurd rfl hne)
    | some x =>
        refine Post.mono (post_checkAdded (h.step (hs₁.trans hs₂)) hp hget) ?_ ?_
        · exact fun _ _ _ hck _ => hck
        · rintro e ⟨rfl, hno⟩
          rw [hover] at hno
          exact Or.inr ⟨⟨_, rfl⟩, Or.inr hno⟩
  · intro _ t₂ hs₂ hchecked
    have hof : SparseChanges.ofMap delta = .ok ⟨delta, hvalid⟩ := SparseChanges.ofMap_eq_ok.mpr rfl
    rw [hof]
    refine Post.pure hs₂.coherent ⟨?_, ?_, ?_, hflat⟩
    · exact fun p x hc => (hfine _ (hmem p _ hc)).valid x rfl
    · rintro ⟨p, hp, hc, hs, hbelow⟩
      exact (hfine _ (hmem p _ hc)).clear ⟨rfl, hs, hbelow⟩
    · rw [← hover]
      apply prefixFree_of_checked hS
      intro p e hp hD
      exact hchecked (⟨p⟩, some e) (SortedMap.get?_eq_some.mp hD) (by simp)

/-- A delta that is not refused is normalized. -/
theorem Answers.exists_normalize (h : index.Answers E base S Valid t) (hS : S.PrefixFree)
    (hc : ∀ p x, c.flat p = some (some x) → Valid x) (hclear : ¬ Ambiguous S c.flat)
    (hfree : (S.over c.flat).PrefixFree) :
    ∃ d t', index.normalize base c t = .ok (d, t') ∧ Trees.Step E t t' ∧
      d.flat = Flat.diff S (S.over c.flat) := by
  have hok : Post E (index.normalize base c) t (fun d _ => d.flat = Flat.diff S (S.over c.flat))
      (fun _ => False) := by
    apply (post_normalize hS h).mono (fun _ _ _ hd => hd.2.2.2)
    rintro e (⟨p, x, hpx, hx⟩ | ⟨_, hamb | hno⟩)
    · exact hx (hc p x hpx)
    · exact hclear hamb
    · exact hno hfree
  exact hok.exists_ok

omit [DecidableEq Id] [Hashing Id] [Store σ Id] [LawfulStore σ Id] in
/-- A difference deletes only files. -/
theorem not_ambiguous_diff {V : Type} [DecidableEq V] {S T : Flat V} : ¬ Ambiguous S (S.diff T) := by
  rintro ⟨p, _, hc, hs, _⟩
  obtain ⟨hne, hnone⟩ := Flat.diff_eq_some.mp hc
  exact hne (hs.trans hnone)

/-! ### The index over trees -/

/-- `Index`: point reads through the derived trees of World snapshots.  `roots` is the stored root
of a version, and `validate` the check of an entry's content. -/
def «over» (roots : VersionNumber → Except (Error Id) Id)
    (validate : FileEntry Id → Except (Error Id) Unit) : WorldIndex σ Id where
  entryAt path version := do
    let root ← roots version
    return (← lookup root path).bind Node.file?
  isDir path version := do
    let root ← roots version
    return ((← lookup root path).bind Node.dir?).isSome
  filesUnder dir version := do
    let root ← roots version
    Trees.filesUnder root dir
  checkEntry entry := do validate entry

variable {roots : VersionNumber → Except (Error Id) Id}
  {validate : FileEntry Id → Except (Error Id) Unit} {root : Id}

omit [DecidableEq Id] [Hashing Id] [Store σ Id] [LawfulStore σ Id] in
theorem below_iff_under {p : List Name} : S.Below p ↔ ¬ (under S p).Empty := by
  unfold Flat.Empty
  rw [not_forall]
  constructor
  · rintro ⟨q, hq, hs⟩
    exact ⟨q, by rwa [under_of_ne hq]⟩
  · rintro ⟨q, hs⟩
    have hq : q ≠ [] := by
      rintro rfl
      exact hs rfl
    rw [under_of_ne hq] at hs
    exact ⟨q, hq, hs⟩

/-- What the environment of a tree operation answers. -/
theorem runs_lift {α : Type} {x : Except (Error Id) α} {a : α} (ht : t.Coherent) (hx : x = .ok a) :
    Runs E (liftM x : TreesM σ Id α) t a := by
  subst hx
  exact Runs.pure ht a

/-- The index over a readable canonical tree is exact. -/
theorem answers_over (ht : t.Coherent) (hroot : roots base = .ok root) (htree : IsTree t.Has S root)
    (hv : ValidBelow [] S) :
    (WorldIndex.over roots validate : WorldIndex σ Id).Answers E base S (fun e => validate e = .ok ()) t where
  coherent := ht
  entryAt := by
    intro t₁ hs p hp
    refine Runs.bind (runs_lift hs.coherent hroot) ?_
    intro t₂ hs₂
    have hnode := @post_lookupNames σ Id _ _ _ _ t₂ E S (fun _ => False) hs₂.coherent MAX_DEPTH root
      p.names hp (IsDir.mono (fun c hc => hs₂.has c (hs.has c hc)) htree)
    refine Post.bind hnode ?_
    intro x t₃ hs₃ hx
    exact Post.pure hs₃.coherent hx.file_eq
  isDir := by
    intro t₁ hs p hp
    refine Runs.bind_post (runs_lift hs.coherent hroot) ?_
    intro t₂ hs₂
    refine Post.bind (post_lookupNames hs₂.coherent hp
      (IsDir.mono (fun c hc => hs₂.has c (hs.has c hc)) htree)) ?_
    intro x t₃ hs₃ hx
    refine Post.pure hs₃.coherent ?_
    rw [below_iff_under]
    rcases hx.dir_eq with ⟨hd, hempty⟩ | ⟨id, hd, hne, _⟩
    · rw [hd]
      exact iff_of_false (by simp) (not_not.mpr hempty)
    · rw [hd]
      exact iff_of_true rfl hne
  filesUnder := by
    intro t₁ hs p hp
    refine Runs.bind_post (runs_lift hs.coherent hroot) ?_
    intro t₂ hs₂
    refine Post.mono (post_filesUnder hs₂.coherent
      (IsDir.mono (fun c hc => hs₂.has c (hs.has c hc)) htree) hv hp) ?_ (fun _ h => h)
    exact fun _ _ _ hl => hl.2
  checkEntry := by
    intro t₁ hs e
    show Post E (liftM (validate e) : TreesM σ Id Unit) t₁ _ _
    cases hval : validate e with
    | ok u => exact Post.pure hs.coherent rfl
    | error err => exact Post.throw (by simp)

/-! ### Agreement with the flat semantics -/

/-- `normalize` succeeds exactly on deltas without an ambiguous deletion whose result is prefix-free.
Then it returns the flat difference, returns it again when given it, and the difference applies to
the snapshot's tree unless the result is too tall. -/
theorem normalize_exact {S : Manifest Id} (h : index.Answers E base S.flat Valid t)
    (hc : ∀ p x, c.flat p = some (some x) → Valid x) :
    ((∃ d t', index.normalize base c t = .ok (d, t')) ↔
      ¬ Ambiguous S.flat c.flat ∧ (S.flat.over c.flat).PrefixFree) ∧
    ∀ d t', index.normalize base c t = .ok (d, t') →
      (∀ p e, d.entries.get? p = some e ↔ S.entries.get? p ≠ (c.apply S.entries).get? p ∧
        e = (c.apply S.entries).get? p) ∧
      (∃ t'', index.normalize base d t' = .ok (d, t'')) ∧
      ∀ (u : Trees σ Id) root, u.Open → Built u S root →
        ((∃ id u', apply root d u = .ok (id, u')) ↔ ¬ TooTall MAX_DEPTH (S.flat.over c.flat)) := by
  have hS := S.prefixFree
  have hpost := @post_normalize σ Id _ _ _ _ index base S.flat Valid E t c hS h
  constructor
  · constructor
    · rintro ⟨d, t', hd⟩
      obtain ⟨_, _, hclear, hfree, _⟩ := hpost.of_ok hd
      exact ⟨hclear, hfree⟩
    · rintro ⟨hclear, hfree⟩
      obtain ⟨d, t', hd, _⟩ := h.exists_normalize hS hc hclear hfree
      exact ⟨d, t', hd⟩
  · intro d t' hd
    obtain ⟨hs, _, hclear, hfree, hflat⟩ := hpost.of_ok hd
    have hover : S.flat.over d.flat = S.flat.over c.flat := by
      rw [hflat, Flat.over_diff]
    refine ⟨fun p e => ?_, ?_, fun u root hu hroot => ?_⟩
    · have hp : d.entries.get? p = Flat.diff S.flat (S.flat.over c.flat) p.names :=
        congrFun hflat p.names
      have happly : (c.apply S.entries).get? p = S.flat.over c.flat p.names :=
        congrFun (c.mapFlat_apply S.entries) p.names
      rw [hp, happly]
      exact Flat.diff_eq_some
    · have hvalid : ∀ p x, d.flat p = some (some x) → Valid x := by
        intro p x hpx
        rw [hflat, ← filter_eq_diff, Option.filter_eq_some_iff] at hpx
        exact hc p x hpx.1
      have hclear' : ¬ Ambiguous S.flat d.flat := by
        rw [hflat]
        exact not_ambiguous_diff
      obtain ⟨d', t'', hd', _, hflat'⟩ := (h.step hs).exists_normalize hS hvalid hclear' (hover ▸ hfree)
      have hsame : d' = d := by
        apply SparseChanges.flat_injective
        rw [hflat', hover, hflat]
      exact ⟨t'', hsame ▸ hd'⟩
    · have happly := hu.post_apply hroot.isTree d
      rw [hover] at happly
      constructor
      · rintro ⟨id, u', hid⟩
        exact (happly.of_ok hid).2.2.not_tooTall
      · intro hlow
        have hok : Post Chunk.WellFormed (apply root d) u (fun _ _ => True) (fun _ => False) := by
          apply happly.mono (fun _ _ _ _ => trivial)
          rintro e ⟨_, hrefused | htall⟩
          · rw [hflat] at hrefused
            exact not_refused_diff hfree hrefused
          · exact hlow htall
        obtain ⟨id, u', hid, _⟩ := hok.exists_ok
        exact ⟨id, u', hid⟩

/-- An index over one root, for which every entry is valid. -/
def overRoot (root : ℕ) : WorldIndex (MemoryStore ℕ) ℕ :=
  WorldIndex.over (fun _ => .ok root) (fun _ => .ok ())

theorem answers_overRoot {m : Manifest ℕ} {root : ℕ} {t : Trees (MemoryStore ℕ) ℕ}
    {E : Chunk ℕ → Prop} (ht : t.Open) (hroot : Built t m root) :
    (overRoot root).Answers E 0 m.flat (fun _ => Except.ok () = (Except.ok () : Except (Error ℕ) Unit)) t :=
  answers_over ht.coherent rfl hroot.isTree (validBelow_flat m)

/-- Adding `b/a` to the snapshot of `a`. -/
theorem normalize_exact_two_files : ∃ (root : ℕ) (t : Trees (MemoryStore ℕ) ℕ), Built t fileA root ∧
    ∃ d t', (overRoot root).normalize 0 addB t = .ok (d, t') ∧
      ∀ p e, d.entries.get? p = some e ↔
        fileA.entries.get? p ≠ (addB.apply fileA.entries).get? p ∧
          e = (addB.apply fileA.entries).get? p := by
  obtain ⟨⟨d, t'⟩, h⟩ := exists_of_isOk
    (x := (build fileA >>= fun root => (overRoot root).normalize 0 addB) emptyTrees) (by decide)
  obtain ⟨root, t, hb, hd⟩ := bind_eq_ok h
  obtain ⟨ht, hA⟩ := emptyTrees_open.built hb
  have hindex : (overRoot root).Answers (fun _ => False) 0 fileA.flat _ t := answers_overRoot ht hA
  exact ⟨root, t, hA, d, t', hd, ((normalize_exact hindex (fun _ _ _ => rfl)).2 d t' hd).1⟩

/-- A normalized delta with `2 ^ 33 + 1` long names does not apply to the empty World. -/
theorem normalize_not_always_applied :
    ¬ ∀ (S : Manifest ℕ) (c d : SparseChanges ℕ) (Valid : FileEntry ℕ → Prop)
      (index : WorldIndex (MemoryStore ℕ) ℕ) (t t' u : Trees (MemoryStore ℕ) ℕ) (root : ℕ),
      index.Answers (fun _ => False) 0 S.flat Valid t →
        (∀ p x, c.flat p = some (some x) → Valid x) → u.Open → Built u S root →
          index.normalize 0 c t = .ok (d, t') → ∃ id u', apply root d u = .ok (id, u') := by
  intro hall
  have hcount : 2 ^ 33 + 1 ≤ 2 ^ 34 := by decide
  obtain ⟨⟨root, u⟩, hb⟩ := exists_of_isOk (x := build Manifest.empty emptyTrees) (by decide)
  obtain ⟨hu, hroot⟩ := emptyTrees_open.built hb
  have hindex : (overRoot root).Answers (fun _ => False) 0 (Manifest.empty : Manifest ℕ).flat _ u :=
    answers_overRoot hu hroot
  have hfree : ((Manifest.empty : Manifest ℕ).flat.over (longFiles (2 ^ 33 + 1) sameFile).flat).PrefixFree :=
    longSnapshot_prefixFree hcount
  have hclear : ¬ Ambiguous (Manifest.empty : Manifest ℕ).flat (longFiles (2 ^ 33 + 1) sameFile).flat := by
    rintro ⟨p, _, hc, _⟩
    obtain ⟨_, _, _, heq⟩ := (longFiles_flat hcount p none).mp hc
    cases heq
  obtain ⟨d, t', hd, _, hflat⟩ :=
    hindex.exists_normalize Manifest.empty.prefixFree (fun _ _ _ => rfl) hclear hfree
  obtain ⟨id, u', hid⟩ := hall _ _ d _ _ u t' u root hindex (fun _ _ _ => rfl) hu hroot hd
  have htree := ((hu.post_apply hroot.isTree d).of_ok hid).2.2
  rw [hflat, Flat.over_diff] at htree
  exact htree.not_tooTall (tooTall_longSnapshot hcount (by decide))

end WorldIndex

end Javelin
