import Javelin.Receipts

/-! # The World of a reachable repository

`manifestAt` and `changeset` read a version's snapshot and changeset.  On a chain they give the
snapshots `S` and their exact differences (`Chain.manifestAt_eq`, `Chain.changeset_eq`), applying a
changeset to its parent's tree gives the version's tree (`Chain.apply_eq`), and the snapshot is the
fold of the changesets before it (`Chain.exists_fold`).  Every run keeps the chain, so
`Reachable.world_chain` says all of it of every reachable repository. -/

namespace Javelin

open KeyedList

variable {Id : Type} [LinearOrder Id] [Encoding Id]

namespace Repository

/-- The complete snapshot of a World version, read from its derived tree. -/
def manifestAt (r : Repository Id) (version : VersionNumber) : Except (Error Id) (Manifest Id) := do
  let root := (← r.versionIn version).tree
  let (entries, _) ← Trees.entries root (r.objects.trees .verify)
  Manifest.ofMap entries

/-- The exact changeset a World version applied to its parent. -/
def changeset (r : Repository Id) (version : VersionNumber) : Except (Error Id) (SparseChanges Id) := do
  let _ ← r.versionIn version
  r.changesetIn version

variable {r : Repository Id} {S : VersionNumber → Manifest Id} {n : ℕ} {v w : WorldVersion Id}

/-! ### Reading versions -/

omit [LinearOrder Id] [Encoding Id] in
theorem ofMap_entries (m : Manifest Id) : Manifest.ofMap m.entries = .ok m := by
  unfold Manifest.ofMap
  rw [dif_pos m.valid, dif_pos m.disjoint]

theorem Chain.manifestAt_eq (h : Chain r S) (hv : r.versions[n]? = some v) :
    r.manifestAt n = .ok (S n) := by
  have htree : IsTree (r.objects.trees .verify).Has (S n).flat v.tree :=
    Objects.isTree_trees.mpr (h.tree n v hv)
  have hpost : Trees.Post (fun _ => False) (Trees.entries v.tree) (r.objects.trees .verify)
      (fun m _ => mapFlat m = (S n).flat) (fun _ => False) :=
    Trees.post_entries (Trees.Coherent.new _) htree (Trees.validBelow_flat (S n))
  obtain ⟨m, t', hm, _, hflat⟩ := hpost.exists_ok
  have hentries : m = (S n).entries := SortedMap.ext (fun k => congrFun hflat k.names)
  unfold manifestAt
  rw [except_bind_of_ok (h.versionIn_eq_ok.mpr hv)]
  simp only
  rw [except_bind_of_ok hm, hentries]
  exact ofMap_entries (S n)

theorem Chain.changeset_eq (h : Chain r S) (hw : r.versions[n + 1]? = some w) {c : SparseChanges Id}
    (hl : Link r S n v w c) : r.changeset (n + 1) = .ok c := by
  unfold changeset
  rw [except_bind_of_ok (h.versionIn_eq_ok.mpr hw)]
  refine SparseChanges.ofMap_eq_ok.mpr ?_
  unfold changeRows
  rw [hl.rows]
  rfl

/-- Applying a version's changeset to its parent's tree gives its tree. -/
theorem Chain.apply_eq (h : Chain r S) (hv : r.versions[n]? = some v) (hw : r.versions[n + 1]? = some w)
    {c : SparseChanges Id} (hl : Link r S n v w c) :
    ∃ t', Trees.apply v.tree c (r.objects.trees .write) = .ok (w.tree, t') := by
  have hover : (S n).flat.over c.flat = (S (n + 1)).flat := by
    rw [hl.exact, Flat.over_diff]
  have hnext := h.tree (n + 1) w hw
  have hpost : Trees.Post Chunk.WellFormed (Trees.apply v.tree c) (r.objects.trees .write)
      (fun id t' => IsTree t'.Has (S (n + 1)).flat id) (fun _ => False) := by
    have happly := h.honest.open_write.post_apply (Objects.isTree_trees.mpr (h.tree n v hv)) c
    rw [hover] at happly
    apply happly.mono (fun _ _ _ hid => hid.2)
    intro e he
    cases he.2 with
    | inl hrefused =>
        rw [hl.exact] at hrefused
        exact not_refused_diff (S (n + 1)).prefixFree hrefused
    | inr htall => exact hnext.not_tooTall htall
  obtain ⟨id, t', happly, _, htree⟩ := hpost.exists_ok
  obtain rfl : id = w.tree := IsDir.unique htree hnext
  exact ⟨t', happly⟩

/-- The tree of a version is what building its snapshot gives, in any store. -/
theorem Chain.build_eq (h : Chain r S) (hv : r.versions[n]? = some v) {σ : Type} [Store σ Id]
    [LawfulStore σ Id] {u : Trees σ Id} (hu : u.Open) : ∃ u', Trees.build (S n) u = .ok (v.tree, u') :=
  hu.build_eq (IsDir.mono (fun _ _ => trivial) (h.tree n v hv))

/-- The snapshot of a version is what its changesets lead to from the empty one. -/
theorem Chain.exists_fold (h : Chain r S) (hn : n < r.versions.length) : ∃ cs : List (SparseChanges Id),
    cs.length = n ∧ (∀ (i : ℕ) c, cs[i]? = some c → r.changeset (i + 1) = .ok c) ∧
      (S n).entries = Trees.applyEntries SortedMap.empty cs := by
  induction n with
  | zero =>
      refine ⟨[], rfl, fun i c hc => ?_, ?_⟩
      · cases hc
      · rw [h.genesis]
        rfl
  | succ n ih =>
      have hlt : n < r.versions.length := by omega
      obtain ⟨cs, hlength, hread, hfold⟩ := ih hlt
      have hv := List.getElem?_eq_getElem hlt
      have hw := List.getElem?_eq_getElem hn
      obtain ⟨c, hl⟩ := h.link n _ _ hv hw
      refine ⟨cs ++ [c], by simp [hlength], fun i d hd => ?_, ?_⟩
      · by_cases hi : i < n
        · rw [List.getElem?_append_left (by omega)] at hd
          exact hread i d hd
        · rw [List.getElem?_append_right (by omega)] at hd
          have hzero : i - cs.length = 0 := by
            by_contra hne
            rw [List.getElem?_eq_none (by simp only [List.length_singleton]; omega)] at hd
            cases hd
          rw [hzero] at hd
          obtain rfl := Option.some.inj hd
          obtain rfl : i = n := by omega
          exact h.changeset_eq hw hl
      · apply SortedMap.ext
        intro p
        have hover : (S (n + 1)).flat p.names = (S n).flat.over c.flat p.names := by
          rw [hl.exact, Flat.over_diff]
        have happly := congrFun (c.mapFlat_apply (S n).entries) p.names
        unfold Trees.applyEntries at hfold ⊢
        rw [List.foldl_append, ← hfold]
        exact hover.trans happly.symm

end Repository

namespace System

open Repository

/-- Whatever was run: the versions are numbered from 0 on without a gap and start at the empty root;
each tree is the canonical tree of its version's snapshot; each changeset is the exact difference
from the snapshot before, leads from the tree before to the version's, and is hashed into its ID;
and each snapshot is the fold of the changesets up to it. -/
theorem Reachable.world_chain {s : System Id} (h : Reachable s) :
    (∀ (n : ℕ) v, s.repository.versions[n]? = some v → v.number = n) ∧
    (∃ v, s.repository.versions[0]? = some v ∧ v.tree = emptyId) ∧
    (∀ (n : ℕ) v, s.repository.versions[n]? = some v → ∃ m cs, s.repository.manifestAt n = .ok m ∧
      (∀ (σ : Type) [Store σ Id] [LawfulStore σ Id] (u : Trees σ Id), u.Open →
        ∃ u', Trees.build m u = .ok (v.tree, u')) ∧
      cs.length = n ∧ (∀ (i : ℕ) c, cs[i]? = some c → s.repository.changeset (i + 1) = .ok c) ∧
      m.entries = Trees.applyEntries SortedMap.empty cs) ∧
    ∀ (n : ℕ) v w, s.repository.versions[n]? = some v → s.repository.versions[n + 1]? = some w →
      ∃ before after c, s.repository.manifestAt n = .ok before ∧
        s.repository.manifestAt (n + 1) = .ok after ∧ s.repository.changeset (n + 1) = .ok c ∧
        c.flat = Flat.diff before.flat after.flat ∧
        (∃ t', Trees.apply v.tree c (s.repository.objects.trees .write) = .ok (w.tree, t')) ∧
        w.id = versionId (some v.id) w.tree c := by
  obtain ⟨S, hs⟩ := h.sound.repository
  have hc := hs.chain
  refine ⟨hc.contiguous, ⟨_, hc.first, rfl⟩, fun n v hv => ?_, fun n v w hv hw => ?_⟩
  · obtain ⟨hn, _⟩ := List.getElem?_eq_some_iff.mp hv
    obtain ⟨cs, hlength, hread, hfold⟩ := hc.exists_fold hn
    exact ⟨S n, cs, hc.manifestAt_eq hv, fun σ _ _ u hu => hc.build_eq hv hu, hlength, hread, hfold⟩
  · obtain ⟨c, hl⟩ := hc.link n v w hv hw
    exact ⟨S n, S (n + 1), c, hc.manifestAt_eq hv, hc.manifestAt_eq hw, hc.changeset_eq hw hl, hl.exact,
      hc.apply_eq hv hw hl, hl.id⟩

/-- A numbered repository with a published Layer has a version 1, and the chain leads to it. -/
theorem world_chain_published : ∃ (r : Repository ℕ) (v w : WorldVersion ℕ) (c : SparseChanges ℕ),
    r.versions[0]? = some v ∧ r.versions[1]? = some w ∧ r.changeset 1 = .ok c ∧
      ∃ t', Trees.apply v.tree c (r.objects.trees .write) = .ok (w.tree, t') := by
  obtain ⟨s, call, plan, guard, version, r', hreach, hm, _, _, hcommit, hreach', _⟩ :=
    exists_published 0 ⟨[97]⟩ ⟨[49]⟩
  obtain ⟨S, hs⟩ := hreach.sound.repository
  obtain ⟨_, _, _, _, _, _, _, _, hversions, _⟩ :=
    (hreach.publishes_once.2.2.1 call plan guard _ r' hm hcommit).1 version rfl
  have hpos := hs.chain.length_pos
  have hlength : 1 < r'.versions.length := by
    rw [hversions, List.length_append, List.length_singleton]
    omega
  have hv : r'.versions[0]? = some r'.versions[0] := List.getElem?_eq_getElem (by omega)
  have hw : r'.versions[1]? = some r'.versions[1] := List.getElem?_eq_getElem hlength
  obtain ⟨_, _, c, _, _, hread, _, happly, _⟩ := hreach'.world_chain.2.2.2 0 _ _ hv hw
  exact ⟨r', _, _, c, hv, hw, hread, happly⟩

end System

end Javelin
