import Javelin.Path
import Mathlib.Data.List.Nodup

/-! # Entries, snapshots and changesets

`Manifest` is a complete snapshot: a map from valid paths to file entries in which no path is a
strict ancestor of another.  `SparseChanges` is a changeset: a map from valid paths to the new
entry, or to `none` for a deletion.  Both carry their validity.

`Flat V` is the abstract view both share: a partial function on component lists.  `over S c` is
the snapshot `S` overwritten by the changes `c`, `sub S n` is what lies at and below the
component `n`, and `PrefixFree` says that files and directories do not collide.  The operations
on trees are specified against this view. -/

namespace Javelin

open KeyedList

/-- An operation ID (`OperationId::parse` limits its bytes). -/
structure OperationId where
  text : Str
deriving DecidableEq

/-- A Layer ID. -/
structure LayerId where
  text : Str
deriving DecidableEq

/-- The errors of the library that the modelled operations raise. -/
inductive Error (Id : Type) where
  | invalidInput (text : String)
  | missingObject (id : Id)
  | corruptObject (id : Id)
  | wrongObjectKind (id : Id)
  | missingVersion (number : ℕ)
  | corruptRepository (text : String)
  | layerPublished (layer : LayerId) (operation : OperationId)
  | missingAgentTrace
  | operationIdReused (operation : OperationId)
  | storage (text : String)
deriving DecidableEq

section sequencing
variable {ε α β : Type}

/-- The result of a sequence comes from a result of its first part. -/
theorem except_bind_eq_ok {x : Except ε α} {f : α → Except ε β} {b : β} :
    (x >>= f) = .ok b ↔ ∃ a, x = .ok a ∧ f a = .ok b := by
  cases x with
  | error e =>
      constructor
      · intro h
        cases h
      · rintro ⟨_, h, _⟩
        cases h
  | ok a =>
      constructor
      · exact fun h => ⟨a, rfl, h⟩
      · rintro ⟨_, h, hf⟩
        cases h
        exact hf

theorem except_bind_of_ok {x : Except ε α} {f : α → Except ε β} {a : α} (h : x = .ok a) : (x >>= f) = f a := by
  rw [h]
  rfl

/-- A sequence has a result if its parts have. -/
theorem exists_bind_eq_ok {x : Except ε α} {f : α → Except ε β} {a : α} (hx : x = .ok a)
    (hf : ∃ b, f a = .ok b) : ∃ b, (x >>= f) = .ok b := by
  rw [except_bind_of_ok hx]
  exact hf

/-- A failure may be reworded. -/
theorem mapError_eq_ok {ε' : Type} {x : Except ε α} {f : ε → ε'} {a : α} : x.mapError f = .ok a ↔ x = .ok a := by
  cases x <;> simp [Except.mapError]

theorem map_eq_ok {x : Except ε α} {f : α → β} {b : β} : x.map f = .ok b ↔ ∃ a, x = .ok a ∧ f a = b := by
  cases x <;> simp [Except.map]

end sequencing

/-- A World version number. -/
abbrev VersionNumber := ℕ

/-- What a path names in a snapshot. -/
inductive FileEntry (Id : Type) where
  | regular (content : Id) (executable : Bool)
  | symlink (target : Id)
deriving DecidableEq

namespace FileEntry
variable {Id : Type}

/-- The blob an entry names. -/
def content : FileEntry Id → Id
  | regular content _ => content
  | symlink target => target

end FileEntry

/-! ### Partial functions on component lists -/

/-- A map on paths, each path given by its components. -/
abbrev Flat (V : Type) := List Name → Option V

namespace Flat
variable {V : Type}

/-- The map overwritten by changes: a change to `none` removes. -/
def «over» (S : Flat V) (c : Flat (Option V)) : Flat V := fun p => (c p).getD (S p)

/-- The changes that turn `S` into `T`: the paths whose entries differ. -/
def diff [DecidableEq V] (S T : Flat V) : Flat (Option V) := fun p => if S p = T p then none else some (T p)

/-- Some path strictly below is set. -/
def Below (S : Flat V) (p : List Name) : Prop := ∃ q, q ≠ [] ∧ S (p ++ q) ≠ none

/-- No set path is strictly below another one. -/
def PrefixFree (S : Flat V) : Prop := ∀ p, p ≠ [] → S p ≠ none → ¬ S.Below p

theorem over_of_none {S : Flat V} {c : Flat (Option V)} {p : List Name} (h : c p = none) :
    S.over c p = S p := by
  simp [Flat.over, h]

theorem over_of_some {S : Flat V} {c : Flat (Option V)} {p : List Name} {e : Option V}
    (h : c p = some e) : S.over c p = e := by
  simp [Flat.over, h]

theorem diff_eq_none [DecidableEq V] {S T : Flat V} {p : List Name} :
    diff S T p = none ↔ S p = T p := by
  simp [diff]

theorem diff_eq_some [DecidableEq V] {S T : Flat V} {p : List Name} {e : Option V} :
    diff S T p = some e ↔ S p ≠ T p ∧ e = T p := by
  unfold diff
  split
  · simp_all
  · simp_all [eq_comm]

/-- Overwriting by the difference gives the second map. -/
@[simp] theorem over_diff [DecidableEq V] (S T : Flat V) : S.over (diff S T) = T := by
  funext p
  by_cases h : S p = T p
  · rw [over_of_none (diff_eq_none.mpr h), h]
  · rw [over_of_some (diff_eq_some.mpr ⟨h, rfl⟩)]

end Flat

/-- A list of pairs read as a map on component lists. -/
def flatOf {V : Type} (l : List (List Name × V)) : Flat V := fun p => (lookup Prod.fst p l).map Prod.snd

/-! ### Snapshots and changesets -/

section maps
variable {V : Type}

/-- The map of a `BTreeMap` keyed by paths. -/
def mapFlat (m : SortedMap RepoPath V) : Flat V := fun p => m.get? ⟨p⟩

/-- The entries of such a map, each path by its components. -/
def mapNames (m : SortedMap RepoPath V) : List (List Name × V) :=
  m.toList.map (fun e => (e.1.names, e.2))

theorem flatOf_mapNames (m : SortedMap RepoPath V) : flatOf (mapNames m) = mapFlat m := by
  funext p
  unfold flatOf mapNames mapFlat SortedMap.get?
  have hkey : ∀ e : RepoPath × V, e.1.names = p ↔ e.1 = ⟨p⟩ := fun e =>
    ⟨fun h => RepoPath.names_injective h, fun h => congrArg RepoPath.names h⟩
  have hl : lookup Prod.fst p (m.toList.map (fun e => (e.1.names, e.2))) =
      (lookup Prod.fst (⟨p⟩ : RepoPath) m.toList).map (fun e => (e.1.names, e.2)) := lookup_map hkey
  rw [hl, Option.map_map]
  rfl

theorem mapNames_nodup (m : SortedMap RepoPath V) : ((mapNames m).map Prod.fst).Nodup := by
  have h := List.Nodup.map RepoPath.names_injective m.keys_nodup
  simpa [mapNames, SortedMap.keys, Function.comp_def] using h

end maps

/-- A changeset: exact paths with their new entry, or `none` for deletion. -/
structure SparseChanges (Id : Type) where
  entries : SortedMap RepoPath (Option (FileEntry Id))
  valid : ∀ p ∈ entries.keys, p.Valid

/-- A complete snapshot. -/
structure Manifest (Id : Type) where
  entries : SortedMap RepoPath (FileEntry Id)
  valid : ∀ p ∈ entries.keys, p.Valid
  disjoint : ∀ p ∈ entries.keys, ∀ a ∈ p.ancestors, a ∉ entries.keys

namespace SparseChanges
variable {Id : Type}

def flat (c : SparseChanges Id) : Flat (Option (FileEntry Id)) := mapFlat c.entries

/-- The changes as the tree operations read them. -/
def changes (c : SparseChanges Id) : List (List Name × Option (FileEntry Id)) := mapNames c.entries

theorem ext {c d : SparseChanges Id} (h : ∀ p, c.entries.get? p = d.entries.get? p) : c = d := by
  obtain ⟨e, _⟩ := c
  obtain ⟨f, _⟩ := d
  obtain rfl : e = f := SortedMap.ext h
  rfl

theorem flat_injective : Function.Injective (flat : SparseChanges Id → _) :=
  fun _ _ h => ext (fun p => congrFun h p.names)

theorem valid_of_flat {c : SparseChanges Id} {p : List Name} (h : c.flat p ≠ none) :
    RepoPath.Valid ⟨p⟩ :=
  c.valid _ (SortedMap.mem_keys.mpr (Option.isSome_iff_ne_none.mpr h))

/-- The changeset without entries. -/
def empty : SparseChanges Id := ⟨SortedMap.empty, fun p hp => absurd hp (by simp [SortedMap.keys, SortedMap.empty])⟩

@[simp] theorem flat_empty : (empty : SparseChanges Id).flat = fun _ => none := rfl

/-- `SparseChanges::new` of the entries of a map, whose paths are distinct; the test is what the
type of paths guarantees in the source. -/
def ofMap (m : SortedMap RepoPath (Option (FileEntry Id))) : Except (Error Id) (SparseChanges Id) :=
  if h : ∀ p ∈ m.keys, p.Valid then .ok ⟨m, h⟩ else .error (.invalidInput "invalid repository-relative path")

theorem ofMap_eq_ok {m : SortedMap RepoPath (Option (FileEntry Id))} {c : SparseChanges Id} :
    ofMap m = .ok c ↔ c.entries = m := by
  unfold ofMap
  constructor
  · intro h
    split at h
    · injection h with h
      rw [← h]
    · cases h
  · rintro rfl
    rw [dif_pos c.valid]

end SparseChanges

namespace Manifest
variable {Id : Type}

def flat (m : Manifest Id) : Flat (FileEntry Id) := mapFlat m.entries

/-- The entries as `Trees::build` reads them. -/
def files (m : Manifest Id) : List (List Name × FileEntry Id) := mapNames m.entries

theorem ext {m m' : Manifest Id} (h : ∀ p, m.entries.get? p = m'.entries.get? p) : m = m' := by
  obtain ⟨e, _, _⟩ := m
  obtain ⟨f, _, _⟩ := m'
  obtain rfl : e = f := SortedMap.ext h
  rfl

theorem flat_injective : Function.Injective (flat : Manifest Id → _) :=
  fun _ _ h => ext (fun p => congrFun h p.names)

theorem valid_of_flat {m : Manifest Id} {p : List Name} (h : m.flat p ≠ none) :
    RepoPath.Valid ⟨p⟩ :=
  m.valid _ (SortedMap.mem_keys.mpr (Option.isSome_iff_ne_none.mpr h))

theorem prefixFree (m : Manifest Id) : m.flat.PrefixFree := by
  intro p hp hs
  rintro ⟨q, hq, hc⟩
  have hmem : ∀ r, m.flat r ≠ none → (⟨r⟩ : RepoPath) ∈ m.entries.keys := fun r hr =>
    SortedMap.mem_keys.mpr (Option.isSome_iff_ne_none.mpr hr)
  exact m.disjoint _ (hmem _ hc) ⟨p⟩ (RepoPath.mem_ancestors.mpr ⟨hp, q, hq, rfl⟩) (hmem p hs)

/-- The snapshot of the empty World. -/
def empty : Manifest Id :=
  ⟨SortedMap.empty, fun p hp => absurd hp (by simp [SortedMap.keys, SortedMap.empty]),
    fun p hp => absurd hp (by simp [SortedMap.keys, SortedMap.empty])⟩

/-- `Manifest::new`: refuses a file and a descendant. -/
def ofMap (m : SortedMap RepoPath (FileEntry Id)) : Except (Error Id) (Manifest Id) :=
  if h : ∀ p ∈ m.keys, p.Valid then
    if h' : ∀ p ∈ m.keys, ∀ a ∈ p.ancestors, a ∉ m.keys then .ok ⟨m, h, h'⟩
    else .error (.invalidInput "file and descendant paths collide")
  else .error (.invalidInput "invalid repository-relative path")

end Manifest

/-- `SparseChanges::apply`: the child snapshot's entries. -/
def SparseChanges.apply {Id : Type} (c : SparseChanges Id) (entries : SortedMap RepoPath (FileEntry Id)) :
    SortedMap RepoPath (FileEntry Id) :=
  c.entries.toList.foldl (fun m e => m.set e.1 e.2) entries

theorem mapFlat_foldl_set {V : Type} (l : List (RepoPath × Option V)) (m : SortedMap RepoPath V)
    (h : Ascending Prod.fst l) (p : RepoPath) :
    (l.foldl (fun m e => m.set e.1 e.2) m).get? p =
      ((lookup Prod.fst p l).map Prod.snd).getD (m.get? p) := by
  induction l generalizing m with
  | nil => rfl
  | cons e l ih =>
      rw [ascending_cons] at h
      rw [List.foldl_cons, ih _ h.2, SortedMap.get?_set, lookup_cons]
      by_cases he : e.1 = p
      · have hn : lookup Prod.fst p l = none := lookup_eq_none_of_lt (he ▸ h.1)
        simp [he, hn]
      · simp [he]

theorem SparseChanges.mapFlat_apply {Id : Type} (c : SparseChanges Id)
    (entries : SortedMap RepoPath (FileEntry Id)) :
    mapFlat (c.apply entries) = (mapFlat entries).over c.flat := by
  funext p
  exact mapFlat_foldl_set _ _ c.entries.ascending ⟨p⟩

/-- A map of valid paths in which no path is below another one is a snapshot. -/
theorem Manifest.exists_of_flat {Id : Type} {entries : SortedMap RepoPath (FileEntry Id)}
    (hvalid : ∀ p, mapFlat entries p ≠ none → RepoPath.Valid ⟨p⟩)
    (hfree : (mapFlat entries).PrefixFree) : ∃ m : Manifest Id, m.entries = entries := by
  have hset : ∀ p : RepoPath, p ∈ entries.keys ↔ mapFlat entries p.names ≠ none := fun p => by
    rw [SortedMap.mem_keys, Option.isSome_iff_ne_none]
    rfl
  refine ⟨⟨entries, fun p hp => hvalid _ ((hset p).mp hp), ?_⟩, rfl⟩
  intro p hp a ha hak
  obtain ⟨hne, q, hq, happ⟩ := RepoPath.mem_ancestors.mp ha
  refine hfree a.names hne ((hset a).mp hak) ⟨q, hq, ?_⟩
  rw [← happ]
  exact (hset p).mp hp

/-- A changeset that leaves no file with a descendant leads to a snapshot. -/
theorem Manifest.exists_apply {Id : Type} (m : Manifest Id) (c : SparseChanges Id)
    (hfree : (m.flat.over c.flat).PrefixFree) :
    ∃ m' : Manifest Id, m'.entries = c.apply m.entries := by
  have hflat := c.mapFlat_apply m.entries
  refine Manifest.exists_of_flat ?_ ?_
  · intro p hp
    rw [hflat] at hp
    cases hc : c.flat p with
    | some e => exact SparseChanges.valid_of_flat (c := c) (by rw [hc]; simp)
    | none =>
        rw [Flat.over_of_none hc] at hp
        exact m.valid_of_flat hp
  · rw [hflat]
    exact hfree

end Javelin
