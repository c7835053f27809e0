import Javelin.Normalize

/-! # Stored objects

The `objects` table: blobs, manifests, checkpoints and tree chunks under their hashes.  Bytes of
manifests, checkpoints and chunks are kept parsed; every read checks the hash and the kind again.

`Sql` is the table as a store of tree chunks, with the three sinks of the source: `write` inserts
a derived chunk, `buffer` records it for a later transaction, `verify` only accepts a chunk that
is stored already.  `Sql` is a lawful store. -/

namespace Javelin

open KeyedList

/-- What an object is stored as. -/
inductive ObjectKind where
  | blob
  | manifest
  | checkpoint
  | tree
deriving DecidableEq

/-- Exact immutable base of a Layer.  `world` is the base version's identity. -/
structure LayerBase (Id : Type) where
  repository : Id
  version : VersionNumber
  world : Id
deriving DecidableEq

/-- A checkpoint as it is encoded: its base, its changes against it, the checkpoints stacked into
it and the blob that says who produced it. -/
structure EncodedCheckpoint (Id : Type) where
  base : LayerBase Id
  changes : SparseChanges Id
  sources : List Id
  provenance : Option Id

deriving instance DecidableEq for SparseChanges, Manifest, EncodedCheckpoint

/-- A stored object. -/
inductive Object (Id : Type) where
  | blob (bytes : Str)
  | manifest (manifest : Manifest Id)
  | checkpoint (checkpoint : EncodedCheckpoint Id)
  | tree (chunk : Chunk Id)
deriving DecidableEq

def Object.kind {Id : Type} : Object Id → ObjectKind
  | blob _ => .blob
  | manifest _ => .manifest
  | checkpoint _ => .checkpoint
  | tree _ => .tree

/-- Hashing of every kind of object, and of World versions. -/
class ObjectHash (Id : Type) extends Hashing Id where
  /-- `ObjectId::hash` of an object's kind and bytes. -/
  objectId : Object Id → Id
  objectId_injective : Function.Injective objectId
  objectId_tree : ∀ c, objectId (.tree c) = Hashing.treeId c
  /-- `version_id`: the parent's identity, the root and the changeset, hashed. -/
  versionId : Option Id → Id → SparseChanges Id → Id

export ObjectHash (objectId versionId)

/-- The rows of the `objects` table, the latest first. -/
abbrev Objects (Id : Type) := List (Id × Object Id)

section reads
variable {Id : Type} [DecidableEq Id] [ObjectHash Id]

namespace Objects

/-- `read_object`: the object under `id`, its hash and kind checked. -/
def read (objects : Objects Id) (id : Id) (expectedKind : ObjectKind) :
    Except (Error Id) (Object Id) :=
  match objects.lookup id with
  | none => .error (.missingObject id)
  | some object =>
      if objectId object ≠ id then .error (.corruptObject id)
      else if object.kind ≠ expectedKind then .error (.wrongObjectKind id)
      else .ok object

def readBlob (objects : Objects Id) (id : Id) : Except (Error Id) Str := do
  match ← objects.read id .blob with
  | .blob bytes => return bytes
  | _ => throw (.wrongObjectKind id)

def readManifest (objects : Objects Id) (id : Id) : Except (Error Id) (Manifest Id) := do
  match ← objects.read id .manifest with
  | .manifest manifest => return manifest
  | _ => throw (.wrongObjectKind id)

def readCheckpoint (objects : Objects Id) (id : Id) :
    Except (Error Id) (EncodedCheckpoint Id) := do
  match ← objects.read id .checkpoint with
  | .checkpoint checkpoint => return checkpoint
  | _ => throw (.wrongObjectKind id)

def readTree (objects : Objects Id) (id : Id) : Except (Error Id) (Chunk Id) := do
  match ← objects.read id .tree with
  | .tree chunk => return chunk
  | _ => throw (.wrongObjectKind id)

/-- The row of an object that is not stored yet. -/
def add (objects : Objects Id) (object : Object Id) : Objects Id :=
  match objects.lookup (objectId object) with
  | some _ => objects
  | none => (objectId object, object) :: objects

/-- `insert_object`: stores an object under its hash, once, and reads it back. -/
def insert (objects : Objects Id) (object : Object Id) :
    Except (Error Id) (Id × Objects Id) := do
  let stored ← (objects.add object).read (objectId object) object.kind
  if stored ≠ object then throw (.corruptObject (objectId object))
  else return (objectId object, objects.add object)

/-- `validate_entry`: the content is stored, and can be a symlink target if it is one. -/
def validateEntry (objects : Objects Id) (entry : FileEntry Id) : Except (Error Id) Unit := do
  let bytes ← objects.readBlob entry.content
  match entry with
  | .symlink _ =>
      if bytes = [] ∨ 0 ∈ bytes then
        throw (.invalidInput "symlink target must be nonempty and contain no NUL")
      else return ()
  | .regular _ _ => return ()

/-- Checks the content of every new entry. -/
def validateEntries (objects : Objects Id) (entries : List (FileEntry Id)) :
    Except (Error Id) Unit := entries.forM objects.validateEntry

/-- `manifest_in`: a stored manifest whose entries are all valid. -/
def manifest (objects : Objects Id) (id : Id) : Except (Error Id) (Manifest Id) := do
  let manifest ← objects.readManifest id
  objects.validateEntries (manifest.entries.toList.map Prod.snd)
  return manifest

end Objects

/-- Where derived tree chunks go. -/
inductive Sink (Id : Type) where
  | write
  | buffer (chunks : List (Id × Chunk Id))
  | verify

/-- Tree objects in the `objects` table. -/
structure Sql (Id : Type) where
  objects : Objects Id
  sink : Sink Id

namespace Sql

/-- Chunks recorded by a buffering store, in creation order. -/
def buffered (s : Sql Id) : List (Id × Chunk Id) :=
  match s.sink with
  | .buffer chunks => chunks
  | _ => []

/-- Reading verifies the stored chunk's hash and kind. -/
def verifyChunk (objects : Objects Id) (id : Id) (c : Chunk Id) : Except (Error Id) Unit :=
  match objects.readTree id with
  | .ok stored =>
      if stored = c then .ok () else .error (.corruptRepository "derived tree chunk is not stored")
  | .error (.missingObject _) => .error (.corruptRepository "derived tree chunk is not stored")
  | .error e => .error e

instance : Store (Sql Id) Id where
  load s id := s.objects.readTree id
  save s id c :=
    match s.sink with
    | .write => do
        let (_, objects) ← s.objects.insert (.tree c)
        return { s with objects := objects }
    | .buffer chunks => .ok { s with sink := .buffer (chunks ++ [(id, c)]) }
    | .verify => do
        verifyChunk s.objects id c
        return s
  len s := s.objects.length

end Sql

/-! ### Reading and inserting -/

namespace Objects
variable {objects objects' : Objects Id} {id : Id} {o : Object Id} {c d : Chunk Id}

/-- Every row is under the hash of its object. -/
def Honest (objects : Objects Id) : Prop := ∀ e ∈ objects, objectId e.2 = e.1

/-- Every object of the first table is in the second one. -/
def Extends (objects objects' : Objects Id) : Prop :=
  ∀ id o, objects.lookup id = some o → objects'.lookup id = some o

omit [ObjectHash Id] in
@[refl] theorem Extends.refl (objects : Objects Id) : objects.Extends objects := fun _ _ h => h

omit [ObjectHash Id] in
theorem Extends.trans {objects'' : Objects Id} (h : objects.Extends objects')
    (h' : objects'.Extends objects'') : objects.Extends objects'' :=
  fun id o ho => h' id o (h id o ho)

theorem Honest.of_lookup (h : objects.Honest) (hl : objects.lookup id = some o) : objectId o = id := by
  obtain ⟨l₁, l₂, rfl, _⟩ := List.lookup_eq_some_iff.mp hl
  exact h (id, o) (by simp)

theorem read_eq_ok {k : ObjectKind} :
    objects.read id k = .ok o ↔ objects.lookup id = some o ∧ objectId o = id ∧ o.kind = k := by
  unfold read
  cases hl : objects.lookup id with
  | none => simp
  | some o' =>
      by_cases hid : objectId o' = id
      · by_cases hk : o'.kind = k
        · simp only [hid, hk, ne_eq, not_true_eq_false, if_false, Except.ok.injEq, Option.some.injEq]
          exact ⟨fun h => h ▸ ⟨rfl, hid, hk⟩, fun h => h.1⟩
        · simp only [hid, hk, ne_eq, not_true_eq_false, if_false, not_false_eq_true, if_true,
            reduceCtorEq, Option.some.injEq, false_iff]
          rintro ⟨rfl, _, hk'⟩
          exact hk hk'
      · simp only [hid, ne_eq, not_false_eq_true, if_true, reduceCtorEq, Option.some.injEq, false_iff]
        rintro ⟨rfl, hid', _⟩
        exact hid hid'

theorem readTree_eq_ok : objects.readTree id = .ok c ↔ objects.lookup id = some (.tree c) ∧ c.id = id := by
  have hread : ∀ o, objects.read id .tree = .ok o → ∃ c, o = .tree c := by
    intro o ho
    have hk := (read_eq_ok.mp ho).2.2
    cases o with
    | tree c => exact ⟨c, rfl⟩
    | blob _ => cases hk
    | manifest _ => cases hk
    | checkpoint _ => cases hk
  unfold readTree
  rw [except_bind_eq_ok]
  constructor
  · rintro ⟨o, ho, hc⟩
    obtain ⟨c', rfl⟩ := hread o ho
    obtain ⟨hl, hid, _⟩ := read_eq_ok.mp ho
    cases hc
    exact ⟨hl, by rw [← hid]; exact (ObjectHash.objectId_tree c).symm⟩
  · rintro ⟨hl, hid⟩
    refine ⟨.tree c, read_eq_ok.mpr ⟨hl, ?_, rfl⟩, rfl⟩
    rw [ObjectHash.objectId_tree]
    exact hid

/-- A tree chunk is stored. -/
def Stored (objects : Objects Id) (c : Chunk Id) : Prop := objects.readTree c.id = .ok c

theorem stored_iff : objects.Stored c ↔ objects.lookup c.id = some (.tree c) := by
  unfold Stored
  rw [readTree_eq_ok]
  exact and_iff_left rfl

theorem Extends.stored (h : objects.Extends objects') (hc : objects.Stored c) : objects'.Stored c :=
  stored_iff.mpr (h _ _ (stored_iff.mp hc))

theorem Extends.read {k : ObjectKind} (h : objects.Extends objects') (ho : objects.read id k = .ok o) :
    objects'.read id k = .ok o := by
  obtain ⟨hl, hr⟩ := read_eq_ok.mp ho
  exact read_eq_ok.mpr ⟨h _ _ hl, hr⟩

theorem extends_add (objects : Objects Id) (o : Object Id) : objects.Extends (objects.add o) := by
  intro id o' hl
  unfold add
  cases ho : objects.lookup (objectId o) with
  | some _ => exact hl
  | none =>
      have hne : id ≠ objectId o := by
        rintro rfl
        rw [ho] at hl
        cases hl
      rw [List.lookup_cons, beq_eq_false_iff_ne.mpr hne]
      exact hl

theorem lookup_add_self (objects : Objects Id) (o : Object Id) :
    (objects.add o).lookup (objectId o) = some ((objects.lookup (objectId o)).getD o) := by
  unfold add
  cases ho : objects.lookup (objectId o) with
  | some o' => exact ho
  | none => simp

theorem lookup_add_of_ne {o : Object Id} (h : id ≠ objectId o) :
    (objects.add o).lookup id = objects.lookup id := by
  unfold add
  split
  · rfl
  · rw [List.lookup_cons, beq_eq_false_iff_ne.mpr h]

theorem Honest.add (h : objects.Honest) (o : Object Id) : (objects.add o).Honest := by
  unfold Objects.add
  split
  · exact h
  · intro e he
    rcases List.mem_cons.mp he with rfl | he
    · rfl
    · exact h e he

/-- An insertion adds the object, or finds another one under its hash. -/
theorem insert_eq_ok {o : Object Id} : objects.insert o = .ok (id, objects') ↔
    (objectId o = id ∧ objects.add o = objects') ∧
      (objects.lookup (objectId o) = none ∨ objects.lookup (objectId o) = some o) := by
  have hread : ∀ o', (objects.add o).read (objectId o) o.kind = .ok o' →
      o' = o ∧ (objects.lookup (objectId o) = none ∨ objects.lookup (objectId o) = some o) := by
    intro o' ho'
    obtain ⟨hl, hid, _⟩ := read_eq_ok.mp ho'
    obtain rfl := ObjectHash.objectId_injective hid
    rw [lookup_add_self] at hl
    cases hlook : objects.lookup (objectId o') with
    | none => exact ⟨rfl, Or.inl rfl⟩
    | some o'' =>
        rw [hlook] at hl
        exact ⟨rfl, Or.inr hl⟩
  unfold insert
  rw [except_bind_eq_ok]
  constructor
  · rintro ⟨o', ho', hrest⟩
    obtain ⟨rfl, hor⟩ := hread o' ho'
    rw [if_neg (by simp)] at hrest
    cases hrest
    exact ⟨⟨rfl, rfl⟩, hor⟩
  · rintro ⟨⟨rfl, rfl⟩, hor⟩
    refine ⟨o, read_eq_ok.mpr ⟨?_, rfl, rfl⟩, ?_⟩
    · rw [lookup_add_self]
      rcases hor with h | h <;> rw [h] <;> rfl
    · rw [if_neg (by simp)]
      rfl

/-- In an honest table every insertion goes through. -/
theorem Honest.insert_eq (h : objects.Honest) (o : Object Id) :
    objects.insert o = .ok (objectId o, objects.add o) := by
  refine insert_eq_ok.mpr ⟨⟨rfl, rfl⟩, ?_⟩
  cases hl : objects.lookup (objectId o) with
  | none => exact Or.inl rfl
  | some o' =>
      have hid := ObjectHash.objectId_injective (h.of_lookup hl)
      exact Or.inr (by rw [hid])

theorem validateEntries_eq_ok {l : List (FileEntry Id)} :
    objects.validateEntries l = .ok () ↔ ∀ e ∈ l, objects.validateEntry e = .ok () := by
  unfold validateEntries
  induction l with
  | nil => exact ⟨fun _ => by simp, fun _ => rfl⟩
  | cons e l ih =>
      have hcons : (e :: l).forM objects.validateEntry =
          (objects.validateEntry e >>= fun _ => l.forM objects.validateEntry) := rfl
      rw [hcons, except_bind_eq_ok, List.forall_mem_cons, ← ih]
      constructor
      · rintro ⟨_, he, hl⟩
        exact ⟨he, hl⟩
      · rintro ⟨he, hl⟩
        exact ⟨(), he, hl⟩

end Objects

/-! ### The table as a lawful store -/

namespace Sql
variable {s s' : Sql Id} {c d : Chunk Id}

theorem load_eq_ok {id : Id} : Store.load s id = .ok c ↔ s.objects.readTree id = .ok c := Iff.rfl

theorem verifyChunk_eq_ok {objects : Objects Id} :
    verifyChunk objects c.id c = .ok () ↔ objects.Stored c := by
  unfold verifyChunk Objects.Stored
  constructor
  · intro h
    split at h
    · rename_i stored hr
      split at h
      · rename_i hsame
        rw [hr, hsame]
      · cases h
    · cases h
    · cases h
  · intro h
    rw [h]
    exact if_pos rfl

/-- What saving a chunk does, by sink. -/
theorem save_eq_ok : Store.save s c.id c = .ok s' ↔
    match s.sink with
    | .write => (s.objects.lookup c.id = none ∨ s.objects.Stored c) ∧
        s' = { s with objects := s.objects.add (.tree c) }
    | .buffer chunks => s' = { s with sink := .buffer (chunks ++ [(c.id, c)]) }
    | .verify => s.objects.Stored c ∧ s' = s := by
  have htree : objectId (.tree c) = c.id := ObjectHash.objectId_tree c
  obtain ⟨objects, sink⟩ := s
  cases sink with
  | write =>
      show (do
        let (_, o) ← objects.insert (.tree c)
        return (⟨o, .write⟩ : Sql Id)) = .ok s' ↔ _
      simp only
      rw [except_bind_eq_ok, Objects.stored_iff]
      constructor
      · rintro ⟨⟨id, o⟩, hins, hs⟩
        obtain ⟨⟨_, rfl⟩, hor⟩ := Objects.insert_eq_ok.mp hins
        rw [htree] at hor
        cases hs
        exact ⟨hor, rfl⟩
      · rintro ⟨hor, rfl⟩
        refine ⟨(c.id, objects.add (.tree c)), Objects.insert_eq_ok.mpr ⟨⟨htree, rfl⟩, ?_⟩, rfl⟩
        rw [htree]
        exact hor
  | buffer chunks =>
      show Except.ok (⟨objects, .buffer (chunks ++ [(c.id, c)])⟩ : Sql Id) = .ok s' ↔ _
      rw [Except.ok.injEq, eq_comm]
  | verify =>
      show (do
        verifyChunk objects c.id c
        return (⟨objects, .verify⟩ : Sql Id)) = .ok s' ↔ _
      simp only
      rw [except_bind_eq_ok, ← verifyChunk_eq_ok]
      constructor
      · rintro ⟨_, hv, hs⟩
        cases hs
        exact ⟨hv, rfl⟩
      · rintro ⟨hv, rfl⟩
        exact ⟨(), hv, rfl⟩

/-- Which chunks the sink takes. -/
def Takes (s : Sql Id) (c : Chunk Id) : Prop :=
  match s.sink with
  | .write => s.objects.lookup c.id = none ∨ s.objects.Stored c
  | .buffer _ => True
  | .verify => s.objects.Stored c

/-- The chunk is stored or recorded. -/
def Keeps (s : Sql Id) (c : Chunk Id) : Prop := s.objects.Stored c ∨ (c.id, c) ∈ s.buffered

/-- What a save leaves alone, and what it adds. -/
structure Saved (s s' : Sql Id) (c : Chunk Id) : Prop where
  objects : s.objects.Extends s'.objects
  keeps : ∀ d, s.Keeps d ∨ d = c → s'.Keeps d
  takes : ∀ d, s.Takes d → s'.Takes d

theorem stored_add (h : s.objects.lookup c.id = none ∨ s.objects.Stored c) :
    (s.objects.add (.tree c)).Stored c := by
  have hself := Objects.lookup_add_self s.objects (.tree c)
  rw [ObjectHash.objectId_tree] at hself
  refine Objects.stored_iff.mpr (hself.trans ?_)
  rcases h with h | h
  · exact congrArg some (by rw [show Hashing.treeId c = c.id from rfl, h]; rfl)
  · exact congrArg some (by rw [show Hashing.treeId c = c.id from rfl, Objects.stored_iff.mp h]; rfl)

theorem saved_of_save (h : Store.save s c.id c = .ok s') : Saved s s' c := by
  have hsave := save_eq_ok.mp h
  obtain ⟨objects, sink⟩ := s
  cases sink with
  | write =>
      obtain ⟨hor, rfl⟩ := hsave
      have hext := Objects.extends_add objects (.tree c)
      refine ⟨hext, ?_, ?_⟩
      · rintro d ((hd | hd) | rfl)
        · exact Or.inl (hext.stored hd)
        · cases hd
        · exact Or.inl (stored_add (s := ⟨objects, .write⟩) hor)
      · rintro d (hd | hd)
        · by_cases hid : d.id = c.id
          · obtain rfl := Chunk.id_inj.mp hid
            exact Or.inr (stored_add (s := ⟨objects, .write⟩) hor)
          · refine Or.inl ?_
            rw [Objects.lookup_add_of_ne (by rw [ObjectHash.objectId_tree]; exact hid)]
            exact hd
        · exact Or.inr (hext.stored hd)
  | buffer chunks =>
      subst hsave
      refine ⟨Objects.Extends.refl _, ?_, fun _ _ => trivial⟩
      rintro d ((hd | hd) | rfl)
      · exact Or.inl hd
      · exact Or.inr (List.mem_append_left _ hd)
      · exact Or.inr (List.mem_append_right _ List.mem_cons_self)
  | verify =>
      obtain ⟨hst, rfl⟩ := hsave
      refine ⟨Objects.Extends.refl _, ?_, fun _ h => h⟩
      rintro d (hd | rfl)
      · exact hd
      · exact Or.inl hst

instance : LawfulStore (Sql Id) Id where
  Accepts := Takes
  Holds := Keeps
  holds_of_load h := Or.inl h
  save_of_accepts := by
    intro s c h
    obtain ⟨objects, sink⟩ := s
    cases sink with
    | write => exact ⟨_, save_eq_ok.mpr ⟨h, rfl⟩⟩
    | buffer chunks => exact ⟨_, rfl⟩
    | verify => exact ⟨_, save_eq_ok.mpr ⟨h, rfl⟩⟩
  load_of_save h hd := (saved_of_save h).objects.stored hd
  holds_of_save h hd := (saved_of_save h).keeps _ hd
  accepts_of_save h hd := (saved_of_save h).takes _ hd
  length_le_len := by
    intro s cs hn hc
    have hsub : (cs.map Chunk.id).Nodup := hn.map Hashing.treeId_injective
    have hle : (cs.map Chunk.id).length ≤ (s.objects.map Prod.fst).length := by
      refine (hsub.subperm ?_).length_le
      intro id hid
      obtain ⟨c, hcm, rfl⟩ := List.mem_map.mp hid
      obtain ⟨l₁, l₂, hl, _⟩ := List.lookup_eq_some_iff.mp (Objects.stored_iff.mp (hc c hcm))
      rw [hl]
      simp
    rwa [List.length_map, List.length_map] at hle

end Sql

end reads

end Javelin
