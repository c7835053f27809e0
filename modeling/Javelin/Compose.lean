import Javelin.Publish
import Javelin.Advance

/-! # Composition

What `checkpointIn` accepts and what `composeIn` returns, over a World that is a chain.

A checkpoint reads back exactly if it is `Frozen`: stored, bound to its base version, its entries
stored and its delta the exact difference it makes on its base.  Such a delta meets another
snapshot without an endpoint when nothing comparable to its paths changed (`Untouched`), and then it
is the exact difference it makes there as well (`Flat.Untouched.exact`).  So a composition without
endpoints fails only if the result is too tall (`exists_composeIn`). -/

namespace Javelin

open KeyedList

/-! ### Composing flat maps -/

namespace Flat
variable {V : Type} {B H : Flat V} {c d : Flat (Option V)}

/-- The delta is the exact difference it makes on `S`, and no file has a descendant after it. -/
structure Exact [DecidableEq V] (S : Flat V) (c : Flat (Option V)) : Prop where
  eq_diff : c = Flat.diff S (S.over c)
  free : (S.over c).PrefixFree

/-- No path that is comparable to a changed one differs between `B` and `H`. -/
def Untouched (B H : Flat V) (c : Flat (Option V)) : Prop :=
  ∀ p q, c p ≠ none → q ≠ [] → Comparable p q → B q = H q

theorem Untouched.over_eq (h : Untouched B H c) {p q : List Name} (hp : c p ≠ none) (hq : q ≠ [])
    (hpq : Comparable p q) : H.over c q = B.over c q := by
  unfold Flat.over
  rw [h p q hp hq hpq]

/-- An untouched delta does not collide. -/
theorem Untouched.free (h : Untouched B H c) (hH : H.PrefixFree) (hB : (B.over c).PrefixFree) :
    (H.over c).PrefixFree := by
  rintro p hp hs ⟨q, hq, hsq⟩
  have hpq : p ++ q ≠ [] := by simp [hp]
  have hprefix : p <+: p ++ q := List.prefix_append p q
  by_cases hc : c p = none ∧ c (p ++ q) = none
  · rw [over_of_none hc.1] at hs
    rw [over_of_none hc.2] at hsq
    exact hH p hp hs ⟨q, hq, hsq⟩
  · obtain ⟨x, hx, hxp, hxq⟩ : ∃ x, c x ≠ none ∧ Comparable x p ∧ Comparable x (p ++ q) := by
      by_cases hcp : c p = none
      · exact ⟨p ++ q, fun hn => hc ⟨hcp, hn⟩, Or.inr hprefix, Or.inl (List.prefix_refl _)⟩
      · exact ⟨p, hcp, Or.inl (List.prefix_refl _), Or.inl hprefix⟩
    rw [h.over_eq hx hp hxp] at hs
    rw [h.over_eq hx hpq hxq] at hsq
    exact hB p hp hs ⟨q, hq, hsq⟩

variable [DecidableEq V]

/-- Every change of an exact delta changes something. -/
theorem Exact.ne (h : Exact B c) {p : List Name} {e : Option V} (hc : c p = some e) : B p ≠ e := by
  rw [h.eq_diff] at hc
  obtain ⟨hne, rfl⟩ := diff_eq_some.mp hc
  exact hne

theorem exact_of_ne (hfree : (H.over c).PrefixFree) (hne : ∀ p e, c p = some e → H p ≠ e) :
    Exact H c := by
  refine ⟨?_, hfree⟩
  funext p
  cases hc : c p with
  | none => exact (diff_eq_none.mpr (over_of_none hc).symm).symm
  | some e => exact (diff_eq_some.mpr ⟨by rw [over_of_some hc]; exact hne p e hc, (over_of_some hc).symm⟩).symm

/-- An untouched exact delta is the exact difference it makes on the other map as well. -/
theorem Untouched.exact (h : Untouched B H c) (hnil : c [] = none) (hH : H.PrefixFree) (hB : Exact B c) :
    Exact H c := by
  apply exact_of_ne (h.free hH hB.free)
  intro p e hc
  have hp : p ≠ [] := by
    rintro rfl
    rw [hnil] at hc
    cases hc
  rw [← h p p (by simp [hc]) hp (Or.inl (List.prefix_refl p))]
  exact hB.ne hc

theorem Exact.not_refused (h : Exact H c) : ¬ Refused H c := by
  have hr := not_refused_diff (S := H) h.free
  rwa [← h.eq_diff] at hr

theorem Exact.not_ambiguous (h : Exact H c) : ¬ Ambiguous H c := by
  have ha := WorldIndex.not_ambiguous_diff (S := H) (T := H.over c)
  rwa [← h.eq_diff] at ha

end Flat

theorem SparseChanges.flat_nil {Id : Type} (c : SparseChanges Id) : c.flat [] = none := by
  by_contra h
  exact (SparseChanges.valid_of_flat h).1 rfl

variable {Id : Type} [LinearOrder Id] [Encoding Id]

namespace Repository
variable {r r' : Repository Id} {S : VersionNumber → Manifest Id}

/-! ### Reading checkpoints -/

/-- What normalizing against a version of the chain gives. -/
theorem normalizeIn_eq_ok (h : Chain r S) {base : VersionNumber} {v : WorldVersion Id}
    (hv : r.versions[base]? = some v) {c d : SparseChanges Id} :
    r.normalizeIn base c = .ok d ↔
      (∀ p e, c.flat p = some (some e) → r.objects.validateEntry e = .ok ()) ∧
        ¬ Ambiguous (S base).flat c.flat ∧ ((S base).flat.over c.flat).PrefixFree ∧
        d.flat = Flat.diff (S base).flat ((S base).flat.over c.flat) := by
  have hroot : r.treeIn base = .ok v.tree := h.treeIn_eq_ok.mpr ⟨v, hv, rfl⟩
  have htree : IsTree (r.objects.trees .verify).Has (S base).flat v.tree :=
    Objects.isTree_trees.mpr (h.tree base v hv)
  have hindex : r.index.Answers (fun _ => False) base (S base).flat
      (fun e => r.objects.validateEntry e = .ok ()) (r.objects.trees .verify) :=
    WorldIndex.answers_over (Trees.Coherent.new _) hroot htree (Trees.validBelow_flat (S base))
  unfold normalizeIn
  rw [except_bind_eq_ok]
  constructor
  · rintro ⟨⟨d', t⟩, hd, hpure⟩
    obtain rfl : d' = d := Except.ok.inj hpure
    exact ((WorldIndex.post_normalize (S base).prefixFree hindex).of_ok hd).2
  · rintro ⟨hvalid, hclear, hfree, hflat⟩
    obtain ⟨d', t, hd, _, hflat'⟩ := hindex.exists_normalize (S base).prefixFree hvalid hclear hfree
    obtain rfl : d' = d := SparseChanges.flat_injective (hflat'.trans hflat.symm)
    exact ⟨(d', t), hd, rfl⟩

/-- A stored checkpoint whose base, delta and provenance check out. -/
structure Frozen (r : Repository Id) (S : VersionNumber → Manifest Id) (id : Id)
    (checkpoint : LayerCheckpoint Id) : Prop where
  named : checkpoint.id = id
  stored : r.objects.readCheckpoint id =
    .ok ⟨checkpoint.base, checkpoint.changes, checkpoint.sources, checkpoint.provenance⟩
  small : checkpoint.base.version ≤ MAX_VERSION
  repository : checkpoint.base.repository = r.identity
  version : ∃ v, r.versions[checkpoint.base.version]? = some v ∧ v.id = checkpoint.base.world
  contents : ∀ p e, checkpoint.changes.flat p = some (some e) → r.objects.validateEntry e = .ok ()
  exact : Flat.Exact (S checkpoint.base.version).flat checkpoint.changes.flat
  sources : checkpoint.sources.IsChain (· < ·)
  provenance : r.checkProvenance checkpoint.provenance = .ok ()

theorem validateBase_eq_ok (h : Chain r S) {base : LayerBase Id} :
    r.validateBase base = .ok () ↔
      base.repository = r.identity ∧ ∃ v, r.versions[base.version]? = some v ∧ v.id = base.world := by
  unfold validateBase
  simp only [except_bind_eq_ok, refuse_eq_ok, not_not]
  constructor
  · rintro ⟨_, hid, v, hv, hworld⟩
    exact ⟨hid.symm, v, h.versionIn_eq_ok.mp hv, hworld⟩
  · rintro ⟨hid, v, hv, hworld⟩
    exact ⟨(), hid.symm, v, h.versionIn_eq_ok.mpr hv, hworld⟩

/-- An exact delta normalizes to itself. -/
theorem normalizeIn_self (h : Chain r S) {base : VersionNumber} {v : WorldVersion Id}
    (hv : r.versions[base]? = some v) {c : SparseChanges Id} :
    r.normalizeIn base c = .ok c ↔
      (∀ p e, c.flat p = some (some e) → r.objects.validateEntry e = .ok ()) ∧
        Flat.Exact (S base).flat c.flat := by
  rw [normalizeIn_eq_ok h hv]
  constructor
  · rintro ⟨hvalid, _, hfree, hflat⟩
    exact ⟨hvalid, hflat, hfree⟩
  · rintro ⟨hvalid, hexact⟩
    exact ⟨hvalid, hexact.not_ambiguous, hexact.free, hexact.eq_diff⟩

/-- Exactly the frozen checkpoints read back. -/
theorem checkpointIn_eq_ok (h : Chain r S) {id : Id} {checkpoint : LayerCheckpoint Id} :
    r.checkpointIn id = .ok checkpoint ↔ Frozen r S id checkpoint := by
  unfold checkpointIn checkpointNode
  simp only [except_bind_eq_ok, refuse_eq_ok, rewrap_eq_ok, not_or, not_not, not_lt]
  constructor
  · rintro ⟨encoded, hread, _, hsmall, _, hbase, normalized, hnormal, _, ⟨rfl, hchain⟩, _, hprov, hpure⟩
    obtain rfl := Except.ok.inj hpure
    obtain ⟨hrepo, v, hv, hworld⟩ := (validateBase_eq_ok h).mp hbase
    obtain ⟨hvalid, hexact⟩ := (normalizeIn_self h hv).mp hnormal
    exact ⟨rfl, hread, hsmall, hrepo, ⟨v, hv, hworld⟩, hvalid, hexact, hchain, hprov⟩
  · intro hf
    obtain ⟨v, hv, hworld⟩ := hf.version
    have hbase := (validateBase_eq_ok h).mpr ⟨hf.repository, v, hv, hworld⟩
    have hnormal := (normalizeIn_self h hv).mpr ⟨hf.contents, hf.exact⟩
    refine ⟨_, hf.stored, (), hf.small, (), hbase, _, hnormal, (), ⟨rfl, hf.sources⟩, (), hf.provenance, ?_⟩
    rw [← hf.named]
    rfl

/-! ### Composing with a World -/

/-- A chunk of a composition: it reads back, or it is among the new ones. -/
def ReadableWith (objects : Objects Id) (chunks : List (Id × Chunk Id)) (c : Chunk Id) : Prop :=
  c.WellFormed ∧ (c = .emptyLeaf ∨ objects.Stored c ∨ (c.id, c) ∈ chunks)

/-- The endpoints of the intersections of a checkpoint with what a World changed since its base. -/
def Meets (S : VersionNumber → Manifest Id) (checkpoint : LayerCheckpoint Id) (world : VersionNumber)
    (x : RepoPath) : Prop :=
  Endpoint [] (S checkpoint.base.version).flat (S world).flat
    (fun p => checkpoint.changes.flat p ≠ none) x

omit [LinearOrder Id] [Encoding Id] in
/-- Without an endpoint nothing comparable changed. -/
theorem untouched_iff {checkpoint : LayerCheckpoint Id} {world : VersionNumber} :
    Flat.Untouched (S checkpoint.base.version).flat (S world).flat checkpoint.changes.flat ↔
      ∀ x, ¬ Meets S checkpoint world x := by
  constructor
  · rintro h x ⟨p, q, hp, hq, hne, hpq, _⟩
    exact hne (h p q hp hq hpq)
  · intro h p q hp hq hpq
    by_contra hne
    exact h ⟨p⟩ ⟨p, q, hp, hq, hne, hpq, Or.inl rfl⟩

/-- What a buffering run can read is stored or recorded. -/
theorem readableWith_of_has {t : SqlTrees Id} {objects : Objects Id} (ht : t.Coherent)
    (hobjects : t.store.objects = objects) {c : Chunk Id} (hc : t.Has c) :
    ReadableWith objects t.store.buffered c := by
  obtain ⟨hw, hk⟩ := ht.of_has hc
  refine ⟨hw, hk.imp_right (fun hkeeps => ?_)⟩
  rw [← hobjects]
  exact hkeeps

/-- A buffering store keeps its table. -/
theorem objects_of_saves {E : Chunk Id → Prop} {s s' : Sql Id} (h : Saves E s s')
    (hs : ∃ chunks, s.sink = .buffer chunks) :
    s'.objects = s.objects ∧ ∃ chunks, s'.sink = .buffer chunks := by
  induction h with
  | refl => exact ⟨rfl, hs⟩
  | @tail s₁ s₂ c _ _ hsave ih =>
      obtain ⟨hobjects, chunks, hsink⟩ := ih
      have hsave := Sql.save_eq_ok.mp hsave
      rw [hsink] at hsave
      subst hsave
      exact ⟨hobjects, _, rfl⟩

/-- A composition of a checkpoint with the snapshot of a World. -/
structure Composes (r : Repository Id) (S : VersionNumber → Manifest Id)
    (checkpoint : LayerCheckpoint Id) (world : VersionNumber) (composition : Composition Id) : Prop where
  apart : ∀ x, ¬ Meets S checkpoint world x
  changes : composition.changes = checkpoint.changes
  tree : IsTree (ReadableWith r.objects composition.chunks)
    ((S world).flat.over checkpoint.changes.flat) composition.tree

variable {head : LayerHead Id} {world : WorldVersion Id} {checkpoint : LayerCheckpoint Id}

/-- The endpoints that `composeIn` finds. -/
theorem exists_found (h : Chain r S) (hw : r.versions[world.number]? = some world)
    (hf : Frozen r S head.checkpoint checkpoint) :
    ∃ base found t, r.treeIn checkpoint.base.version = .ok base ∧
      Trees.intersections base world.tree checkpoint.changes (r.objects.trees (.buffer [])) =
        .ok (found, t) ∧
      Trees.Step Chunk.WellFormed (r.objects.trees (.buffer [])) t ∧
      ∀ x, x ∈ found ↔ Meets S checkpoint world.number x := by
  obtain ⟨v, hv, _⟩ := hf.version
  have hbase : IsTree (r.objects.trees (.buffer [])).Has (S checkpoint.base.version).flat v.tree :=
    Objects.isTree_trees.mpr (h.tree _ v hv)
  have hworld : IsTree (r.objects.trees (.buffer [])).Has (S world.number).flat world.tree :=
    Objects.isTree_trees.mpr (h.tree _ world hw)
  have hpost : Trees.Post Chunk.WellFormed
      (Trees.intersections v.tree world.tree checkpoint.changes) (r.objects.trees (.buffer []))
      (fun found _ => ∀ x, x ∈ found ↔ Meets S checkpoint world.number x) (fun _ => False) :=
    Trees.post_intersections (Trees.Coherent.new _) hbase hworld (Trees.validBelow_flat _)
      (Trees.validBelow_flat _) checkpoint.changes
  obtain ⟨found, t, hok, hstep, hmem⟩ := hpost.exists_ok
  exact ⟨v.tree, found, t, h.treeIn_eq_ok.mpr ⟨v, hv, rfl⟩, hok, hstep, hmem⟩

/-- The second half of `composeIn`, after the endpoints are found. -/
theorem composeIn_eq (h : Chain r S) (hf : Frozen r S head.checkpoint checkpoint)
    (hle : checkpoint.base.version ≤ world.number) {base : Id} {found : SortedSet RepoPath}
    {t : SqlTrees Id} (hbase : r.treeIn checkpoint.base.version = .ok base)
    (hfound : Trees.intersections base world.tree checkpoint.changes (r.objects.trees (.buffer [])) =
      .ok (found, t)) :
    r.composeIn head world = if found.keys ≠ [] then .ok (.inl found.keys) else do
      let (tree, t) ← Trees.apply world.tree checkpoint.changes t
      return .inr ⟨checkpoint.changes, tree, t.store.buffered⟩ := by
  have hrefuse : refuse (world.number < checkpoint.base.version)
      (corrupt "publication World precedes Layer base" : Error Id) = .ok () :=
    refuse_eq_ok.mpr (not_lt.mpr hle)
  unfold composeIn
  rw [except_bind_of_ok ((checkpointIn_eq_ok h).mpr hf), except_bind_of_ok hrefuse,
    except_bind_of_ok hbase, except_bind_of_ok hfound]
  rfl

/-- The trees after the endpoints are found. -/
theorem post_compose (h : Chain r S) (hw : r.versions[world.number]? = some world) {t : SqlTrees Id}
    (hstep : Trees.Step Chunk.WellFormed (r.objects.trees (.buffer [])) t) :
    Trees.Post Chunk.WellFormed (Trees.apply world.tree checkpoint.changes) t
      (fun tree t' => IsTree (ReadableWith r.objects t'.store.buffered)
        ((S world.number).flat.over checkpoint.changes.flat) tree)
      (fun _ => Refused (S world.number).flat checkpoint.changes.flat ∨
        TooTall MAX_DEPTH ((S world.number).flat.over checkpoint.changes.flat)) := by
  have hopen : t.Open := Objects.open_buffer.step hstep
  have hworld : IsTree t.Has (S world.number).flat world.tree :=
    IsDir.mono hstep.has (Objects.isTree_trees.mpr (h.tree _ world hw))
  apply (hopen.post_apply hworld checkpoint.changes).mono
  · rintro tree t' hs ⟨_, htree⟩
    have hsaves := (hstep.trans hs).saves
    obtain ⟨hobjects, _⟩ := objects_of_saves hsaves ⟨[], rfl⟩
    exact IsDir.mono (fun c hc => readableWith_of_has hs.coherent hobjects hc) htree
  · exact fun e he => he.2

/-- A composition is one of the checkpoint with the World, and a conflict lists the endpoints. -/
theorem of_composeIn (h : Chain r S) (hw : r.versions[world.number]? = some world)
    {composed : List RepoPath ⊕ Composition Id} (hok : r.composeIn head world = .ok composed) :
    ∃ checkpoint, Frozen r S head.checkpoint checkpoint ∧ checkpoint.base.version ≤ world.number ∧
      match composed with
      | .inl paths => paths ≠ [] ∧ ∃ found : SortedSet RepoPath, found.keys = paths ∧
          ∀ x, x ∈ found ↔ Meets S checkpoint world.number x
      | .inr composition => Composes r S checkpoint world.number composition := by
  have hfull := hok
  unfold composeIn at hok
  obtain ⟨checkpoint, hcheckpoint, hrest⟩ := except_bind_eq_ok.mp hok
  obtain ⟨_, hle, _⟩ := except_bind_eq_ok.mp hrest
  rw [refuse_eq_ok, not_lt] at hle
  have hf := (checkpointIn_eq_ok h).mp hcheckpoint
  obtain ⟨base, found, t, hbase, hfound, hstep, hmem⟩ := exists_found h hw hf
  rw [composeIn_eq h hf hle hbase hfound] at hfull
  refine ⟨checkpoint, hf, hle, ?_⟩
  by_cases hkeys : found.keys = []
  · rw [if_neg (not_not.mpr hkeys)] at hfull
    obtain ⟨⟨tree, t'⟩, happly, hpure⟩ := except_bind_eq_ok.mp hfull
    obtain rfl := Except.ok.inj hpure
    obtain ⟨_, htree⟩ := (post_compose h hw hstep).of_ok happly
    exact ⟨fun x hx => SortedSet.keys_eq_nil.mp hkeys x ((hmem x).mpr hx), rfl, htree⟩
  · rw [if_pos hkeys] at hfull
    obtain rfl := Except.ok.inj hfull
    exact ⟨hkeys, found, rfl, hmem⟩

/-- With an endpoint, the endpoints are returned. -/
theorem exists_conflict (h : Chain r S) (hw : r.versions[world.number]? = some world)
    (hf : Frozen r S head.checkpoint checkpoint) (hle : checkpoint.base.version ≤ world.number)
    (hmeets : ∃ x, Meets S checkpoint world.number x) :
    ∃ found : SortedSet RepoPath, r.composeIn head world = .ok (.inl found.keys) ∧
      ∀ x, x ∈ found ↔ Meets S checkpoint world.number x := by
  obtain ⟨base, found, t, hbase, hfound, _, hmem⟩ := exists_found h hw hf
  obtain ⟨x, hx⟩ := hmeets
  have hkeys : found.keys ≠ [] := fun hnil => SortedSet.keys_eq_nil.mp hnil x ((hmem x).mpr hx)
  refine ⟨found, ?_, hmem⟩
  rw [composeIn_eq h hf hle hbase hfound, if_pos hkeys]

/-- Without an endpoint the delta applies, unless the result is too tall. -/
theorem exists_composition (h : Chain r S) (hw : r.versions[world.number]? = some world)
    (hf : Frozen r S head.checkpoint checkpoint) (hle : checkpoint.base.version ≤ world.number)
    (hapart : ∀ x, ¬ Meets S checkpoint world.number x)
    (hlow : ¬ TooTall MAX_DEPTH ((S world.number).flat.over checkpoint.changes.flat)) :
    ∃ composition, r.composeIn head world = .ok (.inr composition) ∧
      Composes r S checkpoint world.number composition := by
  obtain ⟨base, found, t, hbase, hfound, hstep, hmem⟩ := exists_found h hw hf
  have hkeys : found.keys = [] := SortedSet.keys_eq_nil.mpr (fun x hx => hapart x ((hmem x).mp hx))
  have hexact := (untouched_iff.mpr hapart).exact checkpoint.changes.flat_nil
    (S world.number).prefixFree hf.exact
  have hpost : Trees.Post Chunk.WellFormed (Trees.apply world.tree checkpoint.changes) t
      (fun tree t' => IsTree (ReadableWith r.objects t'.store.buffered)
        ((S world.number).flat.over checkpoint.changes.flat) tree) (fun _ => False) :=
    (post_compose h hw hstep).mono (fun _ _ _ ht => ht)
      (fun e he => he.elim hexact.not_refused hlow)
  obtain ⟨tree, t', happly, _, htree⟩ := hpost.exists_ok
  refine ⟨⟨checkpoint.changes, tree, t'.store.buffered⟩, ?_, hapart, rfl, htree⟩
  rw [composeIn_eq h hf hle hbase hfound, if_neg (not_not.mpr hkeys), except_bind_of_ok happly]
  rfl

end Repository

end Javelin
