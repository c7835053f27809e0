import Javelin.Publish
import Javelin.Received
import Javelin.Upkeep

/-! # Ordered tables

A table of objects is ordered when every stored tree chunk names only objects that were stored before
it, each with the kind it must have (`Objects.Ordered`).  So a walk from a stored chunk over all that
it names ends, and finds everything (`Objects.Ordered.walkReferences`).

`Trees.Intact` is what the tree operations keep while they write: the table is ordered, and so is it
with the chunks that wait in the buffer, in their order. -/

namespace Javelin

open KeyedList

namespace Node
variable {Id : Type}

/-- What a directory entry names, with its kind. -/
def reference : Node Id → Id × ObjectKind
  | file entry => (entry.content, .blob)
  | dir id => (id, .tree)

end Node

namespace Chunk
variable {Id : Type}

/-- A chunk names what its items name. -/
theorem mem_references {c : Chunk Id} {ref : Id × ObjectKind} :
    ref ∈ c.references ↔ ∃ item ∈ c.items, item.node.reference = ref := by
  have hchild : ∀ item : Item Id, item.tag = .child → item.node.reference = (item.id, .tree) := by
    intro item h
    obtain ⟨name, tag, id⟩ := item
    cases h
    rfl
  have hentry : ∀ item : Item Id, (match item.node with
      | .file entry => (entry.content, ObjectKind.blob)
      | .dir id => (id, .tree)) = item.node.reference := by
    intro item
    cases item.node <;> rfl
  unfold references
  rw [List.mem_append, List.mem_map, List.mem_map]
  constructor
  · rintro (⟨item, hm, he⟩ | ⟨item, hm, he⟩)
    · obtain ⟨hm, ht⟩ := List.mem_filter.mp hm
      exact ⟨item, hm, (hchild item (of_decide_eq_true ht)).trans he⟩
    · obtain ⟨hm, _⟩ := List.mem_filter.mp hm
      exact ⟨item, hm, (hentry item).symm.trans he⟩
  · rintro ⟨item, hm, he⟩
    by_cases ht : item.tag = .child
    · exact Or.inl ⟨item, List.mem_filter.mpr ⟨hm, decide_eq_true ht⟩, (hchild item ht).symm.trans he⟩
    · exact Or.inr ⟨item, List.mem_filter.mpr ⟨hm, decide_eq_true ht⟩, (hentry item).trans he⟩

end Chunk

variable {Id : Type} [DecidableEq Id] [ObjectHash Id]

namespace Objects
variable {objects objects' : Objects Id} {ref : Id × ObjectKind} {c : Chunk Id}

/-- An object of this kind is stored under this ID. -/
def HasKind (objects : Objects Id) (ref : Id × ObjectKind) : Prop :=
  ∃ o, objects.lookup ref.1 = some o ∧ o.kind = ref.2

/-- Every tree chunk was stored after all that it names. -/
inductive Ordered : Objects Id → Prop
  | nil : Ordered []
  | cons {id : Id} {o : Object Id} {rest : Objects Id} : Ordered rest → objectId o = id →
      rest.lookup id = none → (∀ c, o = .tree c → ∀ ref ∈ c.references, rest.HasKind ref) →
      Ordered ((id, o) :: rest)

omit [ObjectHash Id] in
theorem HasKind.extends (h : objects.HasKind ref) (he : objects.Extends objects') : objects'.HasKind ref := by
  obtain ⟨o, ho, hk⟩ := h
  exact ⟨o, he _ _ ho, hk⟩

omit [ObjectHash Id] in
theorem extends_cons {id : Id} {o : Object Id} (h : objects.lookup id = none) :
    objects.Extends ((id, o) :: objects) := by
  intro id' o' ho'
  rw [List.lookup_cons]
  by_cases hid : id' = id
  · rw [hid, h] at ho'
    cases ho'
  · rw [beq_eq_false_iff_ne.mpr hid]
    exact ho'

theorem Ordered.honest (h : objects.Ordered) : objects.Honest := by
  induction h with
  | nil =>
      intro e he
      cases he
  | cons _ hid _ _ ih =>
      intro e he
      cases List.mem_cons.mp he with
      | inl h =>
          rw [h]
          exact hid
      | inr h => exact ih e h

/-- All that a stored chunk names is stored. -/
theorem Ordered.references (h : objects.Ordered) {id : Id} (hc : objects.lookup id = some (.tree c)) :
    ∀ ref ∈ c.references, objects.HasKind ref := by
  induction h with
  | nil => cases hc
  | @cons id' o rest _ _ hnew hrefs ih =>
      have hext : Extends rest ((id', o) :: rest) := extends_cons hnew
      intro ref href
      rw [List.lookup_cons] at hc
      split at hc
      · exact (hrefs c (Option.some.inj hc) ref href).extends hext
      · exact (ih hc ref href).extends hext

/-- A new object may be added once all that it names is stored. -/
theorem Ordered.add (h : objects.Ordered) {o : Object Id}
    (hrefs : ∀ c, o = .tree c → ∀ ref ∈ c.references, objects.HasKind ref) : (objects.add o).Ordered := by
  unfold Objects.add
  cases ho : objects.lookup (objectId o) with
  | some _ => exact h
  | none => exact .cons h rfl ho hrefs

theorem hasKind_add (h : objects.Honest) (o : Object Id) : (objects.add o).HasKind (objectId o, o.kind) := by
  refine ⟨(objects.lookup (objectId o)).getD o, lookup_add_self objects o, ?_⟩
  cases ho : objects.lookup (objectId o) with
  | none => rfl
  | some o' => exact congrArg Object.kind (ObjectHash.objectId_injective (h.of_lookup ho))

/-- An object that is stored reads back with its kind. -/
theorem HasKind.read (h : objects.HasKind ref) (hh : objects.Honest) :
    ∃ o, objects.read ref.1 ref.2 = .ok o := by
  obtain ⟨o, ho, hk⟩ := h
  exact ⟨o, read_eq_ok.mpr ⟨ho, hh.of_lookup ho, hk⟩⟩

theorem HasKind.readTree {id : Id} (h : objects.HasKind (id, .tree)) (hh : objects.Honest) :
    ∃ c, objects.readTree id = .ok c ∧ objects.lookup id = some (.tree c) := by
  obtain ⟨o, ho, hk⟩ := h
  cases o with
  | tree c =>
      have hid := hh.of_lookup ho
      rw [ObjectHash.objectId_tree] at hid
      exact ⟨c, readTree_eq_ok.mpr ⟨ho, hid⟩, ho⟩
  | blob _ => cases hk
  | manifest _ => cases hk
  | checkpoint _ => cases hk

theorem HasKind.readBlob {id : Id} (h : objects.HasKind (id, .blob)) (hh : objects.Honest) :
    ∃ bytes, objects.readBlob id = .ok bytes := by
  obtain ⟨o, ho⟩ := h.read hh
  obtain ⟨_, _, hk⟩ := read_eq_ok.mp ho
  cases o with
  | blob bytes => exact ⟨bytes, by unfold Objects.readBlob; rw [except_bind_of_ok ho]; rfl⟩
  | tree _ => cases hk
  | manifest _ => cases hk
  | checkpoint _ => cases hk

theorem hasKind_of_readTree {id : Id} (h : objects.readTree id = .ok c) : objects.HasKind (id, .tree) :=
  ⟨.tree c, (readTree_eq_ok.mp h).1, rfl⟩

theorem hasKind_of_validateEntry {entry : FileEntry Id} (h : objects.validateEntry entry = .ok ()) :
    objects.HasKind (entry.content, .blob) := by
  unfold validateEntry at h
  obtain ⟨bytes, hread, _⟩ := except_bind_eq_ok.mp h
  unfold readBlob at hread
  obtain ⟨o, ho, _⟩ := except_bind_eq_ok.mp hread
  obtain ⟨hl, _, hk⟩ := read_eq_ok.mp ho
  exact ⟨o, hl, hk⟩

/-! ### Walking everything below a chunk -/

/-- Reads a tree object and everything below it, each with the kind that its parent asks for. -/
def walkReferences (objects : Objects Id) : ℕ → Id → Except (Error Id) Unit
  | 0, _ => throw (corrupt "cyclic tree")
  | bound + 1, id => do
      let c ← objects.readTree id
      c.references.forM (fun ref => match ref.2 with
        | .tree => walkReferences objects bound ref.1
        | kind => do
            let _ ← objects.read ref.1 kind
            return ())

omit [DecidableEq Id] [ObjectHash Id] in
theorem forM_eq_ok {α : Type} {f : α → Except (Error Id) Unit} {l : List α} :
    l.forM f = .ok () ↔ ∀ a ∈ l, f a = .ok () := by
  induction l with
  | nil => exact ⟨fun _ => by simp, fun _ => rfl⟩
  | cons a l ih =>
      have hcons : (a :: l).forM f = (f a >>= fun _ => l.forM f) := rfl
      rw [hcons, except_bind_eq_ok, List.forall_mem_cons, ← ih]
      constructor
      · rintro ⟨_, ha, hl⟩
        exact ⟨ha, hl⟩
      · rintro ⟨ha, hl⟩
        exact ⟨(), ha, hl⟩

/-- A walk in a table finds the same in a longer one. -/
theorem walkReferences_extends (h : objects.Extends objects') {bound bound' : ℕ} (hb : bound ≤ bound') {id : Id}
    (hw : objects.walkReferences bound id = .ok ()) : objects'.walkReferences bound' id = .ok () := by
  induction bound generalizing bound' id with
  | zero => cases hw
  | succ bound ih =>
      obtain ⟨bound', rfl⟩ := Nat.exists_eq_add_of_le hb
      have hbound : bound + 1 + bound' = (bound + bound') + 1 := by omega
      rw [hbound]
      unfold walkReferences at hw ⊢
      obtain ⟨c, hc, hall⟩ := except_bind_eq_ok.mp hw
      refine except_bind_eq_ok.mpr ⟨c, stored_of_readTree h hc, forM_eq_ok.mpr (fun ref href => ?_)⟩
      have hbelow := forM_eq_ok.mp hall ref href
      have hread : ∀ kind, (objects.read ref.1 kind >>= fun _ => pure ()) = .ok () →
          (objects'.read ref.1 kind >>= fun _ => pure ()) = .ok () := by
        intro kind hk
        obtain ⟨o, ho, hp⟩ := except_bind_eq_ok.mp hk
        exact except_bind_eq_ok.mpr ⟨o, h.read ho, hp⟩
      split at hbelow
      · exact ih (Nat.le_add_right _ _) hbelow
      · exact hread _ hbelow
where
  stored_of_readTree {objects objects' : Objects Id} {id : Id} {c : Chunk Id}
      (h : objects.Extends objects') (hc : objects.readTree id = .ok c) : objects'.readTree id = .ok c := by
    obtain ⟨hl, hid⟩ := readTree_eq_ok.mp hc
    exact readTree_eq_ok.mpr ⟨h _ _ hl, hid⟩

/-- In an ordered table everything below a stored tree object is found. -/
theorem Ordered.walkReferences (h : objects.Ordered) {id : Id} (hid : objects.HasKind (id, .tree)) :
    objects.walkReferences objects.length id = .ok () := by
  induction h generalizing id with
  | nil =>
      obtain ⟨o, ho, _⟩ := hid
      cases ho
  | @cons id' o rest hrest hid' hnew hrefs ih =>
      have hext : Extends rest ((id', o) :: rest) := extends_cons hnew
      by_cases hsame : id = id'
      · obtain ⟨c, hread, hl⟩ := hid.readTree (Ordered.cons hrest hid' hnew hrefs).honest
        rw [hsame, List.lookup_cons, beq_self_eq_true] at hl
        have ho : o = .tree c := Option.some.inj hl
        show Objects.walkReferences _ (rest.length + 1) id = .ok ()
        unfold Objects.walkReferences
        refine except_bind_eq_ok.mpr ⟨c, hread, forM_eq_ok.mpr (fun ref href => ?_)⟩
        have hstored := hrefs c ho ref href
        have hblob : ∀ kind, kind = ref.2 →
            (Objects.read ((id', o) :: rest) ref.1 kind >>= fun _ => pure ()) = .ok () := by
          rintro kind rfl
          obtain ⟨o', ho'⟩ := hstored.read hrest.honest
          exact except_bind_eq_ok.mpr ⟨o', hext.read ho', rfl⟩
        split
        · rename_i hk
          have hstored' : rest.HasKind (ref.1, .tree) := by rwa [← hk]
          exact walkReferences_extends hext le_rfl (ih hstored')
        · exact hblob _ rfl
      · have hbelow : rest.HasKind (id, .tree) := by
          obtain ⟨o', ho', hk⟩ := hid
          rw [List.lookup_cons, beq_eq_false_iff_ne.mpr hsame] at ho'
          exact ⟨o', ho', hk⟩
        exact walkReferences_extends hext (Nat.le_add_right _ 1) (ih hbelow)

end Objects

end Javelin
