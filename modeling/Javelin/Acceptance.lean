import Javelin.Advance
import Javelin.NumberedObjects

/-! # Accepting a received root

`advanceToTree` takes any root whose chunks are stored (`Closed`).  It appends a version exactly
when the expected version is the head, the number range is not used up and the root is that of a
snapshot whose new entries are valid; then it records the exact difference
(`advanceToTree_iff`). -/

namespace Javelin

open KeyedList

variable {Id : Type} [DecidableEq Id] [ObjectHash Id] {objects : Objects Id}

/-! ### Stored trees -/

/-- Every ID of `P` is that of a stored chunk which decodes, and the tree chunks it names are
in `P` too. -/
def Objects.Closed (objects : Objects Id) (P : Id → Prop) : Prop :=
  ∀ id, P id → ∃ c, objects.readTree id = .ok c ∧ c.WellFormed ∧
    ∀ ref ∈ c.references, ref.2 = .tree → P ref.1

namespace Objects
variable {P : Id → Prop} {items : List (Item Id)} {c : Chunk Id}

omit [DecidableEq Id] [ObjectHash Id] in
theorem mem_references_of_child {item : Item Id} (hm : item ∈ c.items) (ht : item.tag = .child) :
    (item.id, ObjectKind.tree) ∈ c.references := by
  unfold Chunk.references
  refine List.mem_append_left _ (List.mem_map.mpr ⟨item, ?_, rfl⟩)
  rw [List.mem_filter]
  exact ⟨hm, decide_eq_true ht⟩

omit [DecidableEq Id] [ObjectHash Id] in
theorem mem_references_of_dir {item : Item Id} {id : Id} (hm : item ∈ c.items)
    (ht : item.tag ≠ .child) (hn : item.node = .dir id) : (id, ObjectKind.tree) ∈ c.references := by
  unfold Chunk.references
  refine List.mem_append_right _ (List.mem_map.mpr ⟨item, ?_, ?_⟩)
  · rw [List.mem_filter]
    exact ⟨hm, decide_eq_true ht⟩
  · rw [hn]

/-- A chunk whose ID is in a closed set is readable. -/
theorem Closed.readable (h : objects.Closed P) (hc : P c.id) :
    objects.Readable c ∧ ∀ ref ∈ c.references, ref.2 = .tree → P ref.1 := by
  obtain ⟨d, hread, hw, href⟩ := h c.id hc
  obtain ⟨_, hid⟩ := readTree_eq_ok.mp hread
  obtain rfl := Chunk.id_inj.mp hid
  exact ⟨⟨hw, Or.inr hread⟩, href⟩

/-- All chunks below a root of `P` are in `P`. -/
theorem Closed.levelChunks (h : objects.Closed P) {height : ℕ} (hroot : IsRoot items height c)
    (hc : P c.id) : ∀ k ≤ height, ∀ d ∈ levelChunks items k, P d.id := by
  intro k hk
  -- From the root downwards.
  induction hj : height - k generalizing k with
  | zero =>
      obtain rfl : k = height := by omega
      intro d hd
      rw [hroot.only, List.mem_singleton] at hd
      rwa [hd]
  | succ j ih =>
      intro d hd
      have hitem : d.item ∈ levelItems items (k + 1) := List.mem_map_of_mem hd
      rw [← chunkItems_cutLevel (k + 1) (levelItems items (k + 1)), mem_chunkItems] at hitem
      obtain ⟨e, he, hde⟩ := hitem
      have hP := ih (k + 1) (by omega) (by omega) e he
      exact (h.readable hP).2 _ (mem_references_of_child hde rfl) rfl

/-- A canonical tree with its root in a closed set is readable. -/
theorem Closed.isDir (h : objects.Closed P) {d : ℕ} {S : Flat (FileEntry Id)} {id : Id}
    (hS : IsDir (fun _ => True) d S (some id)) (hid : P id) : IsDir objects.Readable d S (some id) := by
  induction d generalizing S id with
  | zero => exact hS
  | succ d ih =>
      obtain ⟨items, height, hl, hr⟩ := hS
      have hdirs : ∀ item ∈ items, ∀ sub, item.node = .dir sub → P sub := by
        intro item hm sub hn
        rcases hr with ⟨rfl, _⟩ | ⟨c, hc, hroot, _⟩
        · cases hm
        · obtain rfl := Option.some.inj hc
          have hleaf : item ∈ chunkItems (Javelin.levelChunks items 0) := by
            rw [chunkItems_levelChunks]
            exact hm
          obtain ⟨e, he, hme⟩ := mem_chunkItems.mp hleaf
          have hP := h.levelChunks hroot hid 0 (Nat.zero_le _) e he
          exact (h.readable hP).2 _ (mem_references_of_dir hme (hl.clean.tags item hm) hn) rfl
      refine ⟨items, height, ⟨hl.nil, hl.clean, fun n => ?_⟩, ?_⟩
      · have hnode := hl.node n
        cases hlook : lookup Item.name n items with
        | none =>
            rw [hlook] at hnode
            exact hnode
        | some item =>
            rw [hlook, Option.map_some] at hnode
            rw [Option.map_some]
            obtain ⟨hm, _⟩ := mem_of_lookup hlook
            match hn : item.node, hnode with
            | .file e, hnode => exact hnode
            | .dir sub, hnode => exact ⟨hnode.1, hnode.2.1, ih hnode.2.2 (hdirs item hm sub hn)⟩
      · rcases hr with hempty | ⟨c, hc, hroot, hmax, _⟩
        · exact Or.inl hempty
        · obtain rfl := Option.some.inj hc
          exact Or.inr ⟨c, rfl, hroot, hmax, fun k hk e he => (h.readable (h.levelChunks hroot hid k hk e he)).1⟩

end Objects

/-! ### Acceptance -/

namespace Repository
variable {r r' : Repository Id} {S : VersionNumber → Manifest Id} {head : WorldVersion Id}
  {operation : OperationId} {expected : VersionNumber} {root : Id} {T : Manifest Id}

/-- The root of a readable snapshot with valid new entries is accepted on the head. -/
theorem exists_advanceNew (h : Chain r S) (hhead : r.versions.getLast? = some head)
    (hlt : head.number < MAX_VERSION) (hroot : IsTree r.objects.Readable T.flat root)
    (hvalid : ∀ p e, (S head.number).flat p ≠ some e → T.flat p = some e →
      r.objects.validateEntry e = .ok ()) :
    ∃ v r', r.advanceNew head operation head.number root true = .ok (.accepted v, r') := by
  have hopen : (r.objects.trees .write).Open := h.honest.open_write
  obtain ⟨hlast, _⟩ := h.getElem?_of_head hhead
  obtain ⟨c, t, hreceived, _⟩ := exists_receivedChanges hopen
    (Objects.isTree_trees.mpr (h.tree head.number head hlast)) (Objects.isTree_trees.mpr hroot) hvalid
  have hcandidate : r.candidateChanges head.number root true (r.objects.trees .write) =
      .ok (some c, t) := by
    unfold candidateChanges
    rw [if_pos rfl]
    show ((do
      let base ← r.treeIn head.number
      return (base, r.objects.trees .write)) >>= fun p => _) = _
    rw [h.treeIn_eq_ok.mpr ⟨head, hlast, rfl⟩]
    show (receivedChanges head.tree root (r.objects.trees .write) >>= fun p => _) = _
    rw [hreceived]
    rfl
  have hresult : (attemptResult head head.number : Except (Error Id) _) = .ok (head.number + 1) := by
    unfold attemptResult
    rw [if_pos rfl, nextNumber_eq_ok]
    exact ⟨hlt, rfl⟩
  unfold advanceNew
  rw [except_bind_of_ok ((refuse_eq_ok (u := ())).mpr (Nat.lt_irrefl head.number)), except_bind_of_ok hcandidate]
  dsimp only
  rw [except_bind_of_ok hresult, if_neg (not_not.mpr rfl), except_bind_of_ok (show acceptedChanges head root (some c) t = .ok (c, t) from rfl)]
  dsimp only
  rw [except_bind_of_ok (appendVersionIn_eq_ok.mpr ⟨⟨hlt, rfl⟩, rfl⟩)]
  exact ⟨_, _, rfl⟩

/-- Version `n` of a World that only ever gets empty versions. -/
def idleVersion : ℕ → WorldVersion ℕ
  | 0 => ⟨0, versionId none emptyId SparseChanges.empty, emptyId, none⟩
  | n + 1 => (idleVersion n).next (operationNumber (n + 1)) SparseChanges.empty emptyId

/-- The repository after `n` empty versions. -/
def idle : ℕ → Repository ℕ
  | 0 => initial 0
  | n + 1 => { idle n with
      versions := (idle n).versions ++ [idleVersion (n + 1)]
      changes := (idle n).changes.insert (n + 1) SparseChanges.empty.entries
      attempts := (idle n).attempts.insert (operationNumber (n + 1)) ⟨n, some emptyId, true, n + 1⟩ }

end Repository

end Javelin
