import Javelin.Versions
import Javelin.LayerRequests

/-! # What Publish composes

A composition is decided by the flat maps alone: it lists the endpoints of the paths of the delta
that are comparable to a path the World changed since the Layer's base, and without one the delta
applies to the World as it is, unless the result is too tall (`Reachable.composition_exact`).  A
commit appends what was composed (`Committed.snapshot`). -/

namespace Javelin

open KeyedList

variable {Id : Type} [LinearOrder Id] [Encoding Id]

/-- A changed path and a comparable one on which the snapshots differ. -/
def Intersects (base against : Manifest Id) (c : SparseChanges Id) (p q : List Name) : Prop :=
  c.flat p ≠ none ∧ q ≠ [] ∧ base.flat q ≠ against.flat q ∧ Comparable p q

namespace Repository
variable {r r' : Repository Id} {S S' : VersionNumber → Manifest Id} {head : LayerHead Id}
  {world : WorldVersion Id} {checkpoint : LayerCheckpoint Id}

omit [LinearOrder Id] [Encoding Id] in
theorem meets_iff {n : VersionNumber} {x : RepoPath} : Meets S checkpoint n x ↔
    ∃ p q, Intersects (S checkpoint.base.version) (S n) checkpoint.changes p q ∧
      (x.names = p ∨ x.names = q) := by
  have hname : ∀ p, x = ⟨[] ++ p⟩ ↔ x.names = p := by
    intro p
    constructor
    · rintro rfl
      rfl
    · rintro rfl
      rfl
  unfold Meets Endpoint Intersects
  simp only [hname, and_assoc]

omit [LinearOrder Id] [Encoding Id] in
theorem exists_meets_iff {n : VersionNumber} : (∃ x, Meets S checkpoint n x) ↔
    ∃ p q, Intersects (S checkpoint.base.version) (S n) checkpoint.changes p q := by
  constructor
  · intro h
    obtain ⟨x, hx⟩ := h
    obtain ⟨p, q, hpq, _⟩ := meets_iff.mp hx
    exact ⟨p, q, hpq⟩
  · intro h
    obtain ⟨p, q, hpq⟩ := h
    exact ⟨⟨p⟩, meets_iff.mpr ⟨p, q, hpq, Or.inl rfl⟩⟩

/-! ### Composing -/

/-- Without an endpoint, a delta whose result is too tall is refused. -/
theorem exists_refusal (h : Chain r S) (hw : r.versions[world.number]? = some world)
    (hf : Frozen r S head.checkpoint checkpoint) (hle : checkpoint.base.version ≤ world.number)
    (hapart : ∀ x, ¬ Meets S checkpoint world.number x)
    (htall : TooTall MAX_DEPTH ((S world.number).flat.over checkpoint.changes.flat)) :
    ∃ text, r.composeIn head world = .error (.invalidInput text) := by
  obtain ⟨base, found, t, hbase, hfound, hstep, hmem⟩ := exists_found h hw hf
  have hkeys : found.keys = [] := SortedSet.keys_eq_nil.mpr (fun x hx => hapart x ((hmem x).mp hx))
  have hopen : t.Open := Objects.open_buffer.step hstep
  have hworld : IsTree t.Has (S world.number).flat world.tree :=
    IsDir.mono hstep.has (Objects.isTree_trees.mpr (h.tree _ world hw))
  have hpost := hopen.post_apply hworld checkpoint.changes
  rw [composeIn_eq h hf hle hbase hfound, if_neg (not_not.mpr hkeys)]
  cases happly : Trees.apply world.tree checkpoint.changes t with
  | ok applied => exact absurd htall (hpost.of_ok happly).2.2.not_tooTall
  | error e =>
      obtain ⟨⟨text, rfl⟩, _⟩ := hpost.of_error happly
      exact ⟨text, rfl⟩

/-- What a composition is, by the snapshots. -/
structure Composed (r : Repository Id) (base against : Manifest Id) (checkpoint : LayerCheckpoint Id)
    (head : LayerHead Id) (world : WorldVersion Id) : Prop where
  conflict : (∃ p q, Intersects base against checkpoint.changes p q) →
    ∃ found : SortedSet RepoPath, r.composeIn head world = .ok (.inl found.keys) ∧
      ∀ x, x ∈ found ↔ ∃ p q, Intersects base against checkpoint.changes p q ∧
        (x.names = p ∨ x.names = q)
  applied : (¬ ∃ p q, Intersects base against checkpoint.changes p q) →
    ¬ TooTall MAX_DEPTH (against.flat.over checkpoint.changes.flat) →
    ∃ (composition : Composition Id) (after : Manifest Id),
      r.composeIn head world = .ok (.inr composition) ∧
      composition.changes = checkpoint.changes ∧
      after.entries = checkpoint.changes.apply against.entries ∧
      (∀ (σ : Type) [Store σ Id] [LawfulStore σ Id] (u : Trees σ Id), u.Open →
        ∃ u', Trees.build after u = .ok (composition.tree, u')) ∧
      r.normalizeIn world.number checkpoint.changes = .ok checkpoint.changes ∧
      checkpoint.changes.flat = Flat.diff against.flat after.flat
  refused : (¬ ∃ p q, Intersects base against checkpoint.changes p q) →
    TooTall MAX_DEPTH (against.flat.over checkpoint.changes.flat) →
    ∃ text, r.composeIn head world = .error (.invalidInput text)

theorem Chain.composed (h : Chain r S) (hw : r.versions[world.number]? = some world)
    (hf : Frozen r S head.checkpoint checkpoint) (hle : checkpoint.base.version ≤ world.number) :
    Composed r (S checkpoint.base.version) (S world.number) checkpoint head world where
  conflict hmeets := by
    obtain ⟨found, hok, hmem⟩ := exists_conflict h hw hf hle (exists_meets_iff.mpr hmeets)
    exact ⟨found, hok, fun x => (hmem x).trans meets_iff⟩
  applied hapart hlow := by
    have hno : ∀ x, ¬ Meets S checkpoint world.number x :=
      fun x hx => hapart (exists_meets_iff.mp ⟨x, hx⟩)
    obtain ⟨composition, hok, hcomp⟩ := exists_composition h hw hf hle hno hlow
    obtain ⟨after, hentries, hafter⟩ := Trees.exists_snapshot hcomp.tree
    have hexact := (untouched_iff.mpr hno).exact checkpoint.changes.flat_nil
      (S world.number).prefixFree hf.exact
    have htree := hcomp.tree
    rw [← hafter] at htree
    refine ⟨composition, after, hok, hcomp.changes, hentries, ?_, ?_, ?_⟩
    · exact fun σ _ _ u hu => hu.build_eq (IsDir.mono (fun _ _ => trivial) htree)
    · exact (normalizeIn_self h hw).mpr ⟨hf.contents, hexact⟩
    · rw [hafter]
      exact hexact.eq_diff
  refused hapart htall :=
    exists_refusal h hw hf hle (fun x hx => hapart (exists_meets_iff.mp ⟨x, hx⟩)) htall

/-! ### Committing -/

section committed
variable {call : PublishCall Id} {plan : Plan Id}

/-- A published version is the head, and its snapshot the one that was composed. -/
theorem Committed.snapshot {version : WorldVersion Id}
    (h : Committed r call plan (.published version) r') (hfits : Fits r S call plan) (hc : Chain r S)
    (hc' : Chain r' S') (hf : Frozen r S call.expected.checkpoint checkpoint) :
    r'.versions.getLast? = some version ∧ version.number = plan.against.number + 1 ∧
      (S' version.number).flat = (S plan.against.number).flat.over checkpoint.changes.flat := by
  cases h.world with
  | published composition _ hcomposed hp =>
      obtain ⟨_, checkpoint', hf', hcomp⟩ := hfits.composition composition hcomposed
      obtain ⟨hw, hlen⟩ := hc.getElem?_of_head hfits.head
      have hsame : checkpoint' = checkpoint := by
        have hread := (checkpointIn_eq_ok hc).mpr hf'
        rw [(checkpointIn_eq_ok hc).mpr hf] at hread
        exact (Except.ok.inj hread).symm
      subst hsame
      have hnumber : version.number = plan.against.number + 1 := by
        rw [hp.version_eq]
        rfl
      have hlast : r'.versions.getLast? = some version := by
        rw [hp.versions, List.getLast?_concat]
      have hstored : r'.versions[version.number]? = some version :=
        (hc'.getElem?_of_head hlast).1
      have htree := hc'.tree _ _ hstored
      have hsameTree : version.tree = composition.tree := by
        rw [hp.version_eq]
        rfl
      rw [hsameTree] at htree
      exact ⟨hlast, hnumber, IsDir.flat_eq htree hcomp.tree⟩

/-- A published plan was composed from the Layer's checkpoint. -/
theorem Fits.exists_composition (hfits : Fits r S call plan) {version : WorldVersion Id}
    (h : Committed r call plan (.published version) r') : ∃ composition checkpoint,
      Frozen r S call.expected.checkpoint checkpoint ∧
        Composes r S checkpoint plan.against.number composition := by
  cases h.world with
  | published composition _ hcomposed _ =>
      obtain ⟨_, checkpoint, hf, hcomp⟩ := hfits.composition composition hcomposed
      exact ⟨composition, checkpoint, hf, hcomp⟩

/-- A conflict leaves the World and the Layers as they are. -/
theorem Committed.of_conflict {paths : List RepoPath}
    (h : Committed r call plan (.conflict paths) r') : r'.versions = r.versions ∧
      r'.changes = r.changes ∧ r'.attempts = r.attempts ∧ r'.layerHeads = r.layerHeads := by
  cases h.world with
  | conflict _ _ hversions hchanges hattempts _ _ =>
      exact ⟨hversions, hchanges, hattempts, h.only.layerHeads⟩

end committed

end Repository

namespace System

open Repository

/-- Any content can be stored. -/
theorem exists_putBlob {r : Repository Id} (hh : r.objects.Honest) (bytes : Str) : ∃ objects,
    r.putBlob bytes = .ok (objectId (.blob bytes : Object Id), { r with objects := objects }) ∧
      objects.readBlob (objectId (.blob bytes : Object Id)) = .ok bytes := by
  have hinsert := hh.insert_eq (.blob bytes)
  refine ⟨_, ?_, Objects.readBlob_of_insert hinsert⟩
  unfold putBlob store
  rw [except_bind_of_ok hinsert]
  rfl

/-- The content of the files of a tall Layer. -/
def emptyBlob : ℕ := objectId (.blob [] : Object ℕ)

end System

end Javelin
