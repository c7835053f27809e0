import Javelin.Intersect
import Javelin.Numbered

/-! # What trees promise

The contract of the tree operations, over any store that accepts every chunk: a root depends on
the snapshot and not on its history (`history_independence`), trees implement the flat map
(`trees_implement_map`), `diff` is the pointwise difference (`diff_exact`), and `intersections`
is the set of conflicts (`intersections_exact`).

A canonical root is a root that `build` returns; `Built t m root` says in addition that its tree
can be read in the state `t`. -/

namespace Javelin

open KeyedList

variable {σ Id : Type} [DecidableEq Id] [Hashing Id] [Store σ Id] [LawfulStore σ Id]

namespace Trees
variable {t u : Trees σ Id} {m : Manifest Id} {root : Id}

/-- `root` is what `build` returns for the snapshot `m`, and its tree can be read in `t`. -/
def Built (t : Trees σ Id) (m : Manifest Id) (root : Id) : Prop :=
  ∃ u u' : Trees σ Id, u.Open ∧ build m u = .ok (root, u') ∧ ∀ c, u'.Has c → t.Has c

theorem Built.isTree (h : Built t m root) : IsTree t.Has m.flat root := by
  obtain ⟨u, u', hu, hb, hhas⟩ := h
  obtain ⟨_, htree⟩ := (hu.post_build m).of_ok hb
  exact IsDir.mono hhas htree

omit [LawfulStore σ Id] [DecidableEq Id] [Store σ Id] [Hashing Id] in
theorem validBelow_flat (m : Manifest Id) : ValidBelow [] m.flat := fun _ hq => m.valid_of_flat hq

omit [LawfulStore σ Id] [DecidableEq Id] [Store σ Id] [Hashing Id] in
theorem mem_keys_iff (m : Manifest Id) (q : RepoPath) : q ∈ m.entries.keys ↔ m.flat q.names ≠ none := by
  rw [SortedMap.mem_keys, Option.isSome_iff_ne_none]
  rfl

omit [LawfulStore σ Id] [DecidableEq Id] [Store σ Id] [Hashing Id] in
/-- Something lies strictly below a path. -/
theorem exists_below_iff (m : Manifest Id) {p : RepoPath} (hp : p.names ≠ []) :
    (∃ q ∈ m.entries.keys, p ∈ q.ancestors) ↔ ¬ (under m.flat p.names).Empty := by
  unfold Flat.Empty
  rw [not_forall]
  constructor
  · rintro ⟨q, hq, hpq⟩
    obtain ⟨_, r, hr, heq⟩ := RepoPath.mem_ancestors.mp hpq
    refine ⟨r, ?_⟩
    rw [under_of_ne hr, ← heq]
    exact (mem_keys_iff m q).mp hq
  · rintro ⟨r, hs⟩
    have hr : r ≠ [] := by
      rintro rfl
      exact hs rfl
    rw [under_of_ne hr] at hs
    exact ⟨⟨p.names ++ r⟩, (mem_keys_iff m _).mpr hs, RepoPath.mem_ancestors.mpr ⟨hp, r, hr, rfl⟩⟩

omit [DecidableEq Id] in
/-- An accepted changeset leads to a snapshot. -/
theorem exists_snapshot {P : Chunk Id → Prop} {S : Manifest Id} {c : SparseChanges Id} {id : Id}
    (h : IsTree P (S.flat.over c.flat) id) :
    ∃ S' : Manifest Id, S'.entries = c.apply S.entries ∧ S'.flat = S.flat.over c.flat := by
  obtain ⟨S', hS'⟩ := S.exists_apply c h.prefixFree
  refine ⟨S', hS', ?_⟩
  unfold Manifest.flat
  rw [hS']
  exact c.mapFlat_apply S.entries

/-- A canonical root is what `build` returns in every state. -/
theorem Open.build_eq (h : Open u) (hroot : Canonical m.flat root) :
    ∃ u', build m u = .ok (root, u') := by
  have hpost : Post Chunk.WellFormed (build m) u (fun id t' => IsTree t'.Has m.flat id)
      (fun _ => False) :=
    (h.post_build m).mono (fun _ _ _ hid => hid) (fun e he => hroot.not_tooTall he.2)
  obtain ⟨id, u', hb, _, hid⟩ := hpost.exists_ok
  have hsame : id = root := IsDir.unique hid hroot
  exact ⟨u', hsame ▸ hb⟩

/-- A sequence of `apply`, each from the root before. -/
def applyAll (base : Id) (cs : List (SparseChanges Id)) : TreesM σ Id Id := cs.foldlM apply base

/-- The entries after a sequence of changesets. -/
def applyEntries (entries : SortedMap RepoPath (FileEntry Id)) (cs : List (SparseChanges Id)) :
    SortedMap RepoPath (FileEntry Id) := cs.foldl (fun m c => c.apply m) entries

/-- Accepted changesets lead to the canonical root of the entries they lead to. -/
theorem isTree_applyAll {base id : Id} {t t' : Trees σ Id} {cs : List (SparseChanges Id)}
    {entries : SortedMap RepoPath (FileEntry Id)} (ht : t.Open)
    (hbase : IsTree t.Has (mapFlat entries) base) (h : applyAll base cs t = .ok (id, t')) :
    IsTree t'.Has (mapFlat (applyEntries entries cs)) id := by
  induction cs generalizing base t entries with
  | nil =>
      have hp : (base, t) = (id, t') := Except.ok.inj h
      rw [Prod.mk.injEq] at hp
      obtain ⟨rfl, rfl⟩ := hp
      exact hbase
  | cons c cs ih =>
      unfold applyAll at h
      rw [List.foldlM_cons] at h
      obtain ⟨id₁, t₁, hx, hrest⟩ := bind_eq_ok h
      obtain ⟨hs, _, htree⟩ := (ht.post_apply hbase c).of_ok hx
      rw [← c.mapFlat_apply] at htree
      exact ih (ht.step hs) htree hrest

/-! ### A concrete store -/

/-- A state over an empty memory store. -/
def emptyTrees : Trees (MemoryStore ℕ) ℕ := new MemoryStore.empty

theorem emptyTrees_open : emptyTrees.Open := ⟨Coherent.new _, fun _ _ => trivial⟩

def pathA : RepoPath := ⟨[⟨[97], validName_a⟩]⟩
def pathB : RepoPath := ⟨[⟨[98], validName_b⟩, ⟨[97], validName_a⟩]⟩

/-- The snapshot with one file at a path. -/
def oneFile (p : RepoPath) (hp : p.Valid) (hd : ∀ a ∈ p.ancestors, a ≠ p) : Manifest ℕ where
  entries := SortedMap.empty.insert p (.regular 7 false)
  valid := by
    intro q hq
    rw [SortedMap.mem_keys, SortedMap.get?_insert] at hq
    by_cases h : p = q
    · exact h ▸ hp
    · simp [h] at hq
  disjoint := by
    intro q hq a ha hak
    rw [SortedMap.mem_keys, SortedMap.get?_insert] at hq hak
    by_cases h : p = q
    · subst h
      by_cases h' : p = a
      · exact hd a ha h'.symm
      · simp [h'] at hak
    · simp [h] at hq

/-- The changeset that adds one file. -/
def addFile (p : RepoPath) (hp : p.Valid) : SparseChanges ℕ where
  entries := SortedMap.empty.insert p (some (.regular 7 false))
  valid := by
    intro q hq
    rw [SortedMap.mem_keys, SortedMap.get?_insert] at hq
    by_cases h : p = q
    · exact h ▸ hp
    · simp [h] at hq

def fileA : Manifest ℕ := oneFile pathA (by decide) (by decide)
def fileB : Manifest ℕ := oneFile pathB (by decide) (by decide)
def addA : SparseChanges ℕ := addFile pathA (by decide)
def addB : SparseChanges ℕ := addFile pathB (by decide)

omit [LawfulStore σ Id] [DecidableEq Id] [Store σ Id] [Hashing Id] in
theorem exists_of_isOk {α : Type} {x : Except (Error Id) α} (h : x.isOk = true) : ∃ a, x = .ok a := by
  cases x with
  | error e => cases h
  | ok a => exact ⟨a, rfl⟩

/-- What `build` returned is built in the state it left. -/
theorem Open.built (h : u.Open) (hb : build m u = .ok (root, t)) : t.Open ∧ Built t m root := by
  obtain ⟨hs, _⟩ := (h.post_build m).of_ok hb
  exact ⟨h.step hs, u, t, h, hb, fun _ hc => hc⟩

theorem Built.mono (h : Built u m root) (hs : ∀ c, u.Has c → t.Has c) : Built t m root := by
  obtain ⟨v, v', hv, hb, hhas⟩ := h
  exact ⟨v, v', hv, hb, fun c hc => hs c (hhas c hc)⟩

/-- Both snapshots, built in one store. -/
theorem exists_two_built : ∃ (a b : ℕ) (t : Trees (MemoryStore ℕ) ℕ),
    t.Open ∧ Built t fileA a ∧ Built t fileB b := by
  obtain ⟨⟨a, t₁⟩, ha⟩ := exists_of_isOk (x := build fileA emptyTrees) (by decide)
  obtain ⟨ht₁, hA⟩ := emptyTrees_open.built ha
  obtain ⟨b, hb⟩ : ∃ b, Canonical fileB.flat b := by
    obtain ⟨⟨b, t₂⟩, hb⟩ := exists_of_isOk (x := build fileB emptyTrees) (by decide)
    exact ⟨b, IsDir.mono (fun _ _ => trivial) (emptyTrees_open.built hb).2.isTree⟩
  obtain ⟨t₂, hb⟩ := ht₁.build_eq hb
  obtain ⟨ht₂, hB⟩ := ht₁.built hb
  have hs := ((ht₁.post_build fileB).of_ok hb).1
  exact ⟨a, b, t₂, ht₂, hA.mono hs.has, hB⟩

/-! ### History independence -/

/-- Applying an accepted changeset to a built tree gives the root of building the resulting
snapshot; two sequences of accepted changesets from the empty World that end in the same entries
end in the same root. -/
theorem history_independence (ht : t.Open) :
    (∀ (S : Manifest Id) base, Built t S base → ∀ c id t', apply base c t = .ok (id, t') →
      ∃ S' : Manifest Id, S'.entries = c.apply S.entries ∧
        ∀ u : Trees σ Id, u.Open → ∃ u', build S' u = .ok (id, u')) ∧
    (∀ cs cs' id id' t' (u u' : Trees σ Id), u.Open → applyAll emptyId cs t = .ok (id, t') →
      applyAll emptyId cs' u = .ok (id', u') →
        applyEntries SortedMap.empty cs = applyEntries SortedMap.empty cs' → id = id') := by
  constructor
  · intro S base hS c id t' h
    obtain ⟨hs, hnr, htree⟩ := (ht.post_apply hS.isTree c).of_ok h
    obtain ⟨S', hS', hflat⟩ := exists_snapshot htree
    rw [← hflat] at htree
    exact ⟨S', hS', fun u hu => hu.build_eq (IsDir.mono (fun _ _ => trivial) htree)⟩
  · intro cs cs' id id' t' u u' hu h h' heq
    have hempty : ∀ v : Trees σ Id, IsTree v.Has (mapFlat (SortedMap.empty : SortedMap RepoPath
        (FileEntry Id))) emptyId := fun v => isDir_empty (fun _ => rfl) (Or.inr rfl)
    have h1 := isTree_applyAll ht (hempty t) h
    have h2 := isTree_applyAll hu (hempty u) h'
    rw [← heq] at h2
    exact IsDir.unique h1 h2

/-- Adding `b/a` to the snapshot of `a`; adding both to the empty World in two orders. -/
theorem history_independence_two_files :
    (∃ base t₁ id t₂, build fileA emptyTrees = .ok (base, t₁) ∧ apply base addB t₁ = .ok (id, t₂) ∧
      ∃ S' : Manifest ℕ, S'.entries = addB.apply fileA.entries ∧
        ∃ u', build S' emptyTrees = .ok (id, u')) ∧
    ∃ id t' u', applyAll emptyId [addA, addB] emptyTrees = .ok (id, t') ∧
      applyAll emptyId [addB, addA] emptyTrees = .ok (id, u') := by
  constructor
  · obtain ⟨⟨id, t₂⟩, h⟩ := exists_of_isOk
      (x := (build fileA >>= fun base => apply base addB) emptyTrees) (by decide)
    obtain ⟨base, t₁, hb, ha⟩ := bind_eq_ok h
    obtain ⟨ht₁, hA⟩ := emptyTrees_open.built hb
    obtain ⟨S', hS', hbuild⟩ := (history_independence ht₁).1 fileA base hA addB id t₂ ha
    exact ⟨base, t₁, id, t₂, hb, ha, S', hS', hbuild _ emptyTrees_open⟩
  · obtain ⟨⟨id, t'⟩, h⟩ := exists_of_isOk (x := applyAll emptyId [addA, addB] emptyTrees) (by decide)
    obtain ⟨⟨id', u'⟩, h'⟩ := exists_of_isOk (x := applyAll emptyId [addB, addA] emptyTrees) (by decide)
    have hsame : id = id' := (history_independence emptyTrees_open).2 _ _ id id' t' _ u'
      emptyTrees_open h h' (by decide)
    exact ⟨id, t', u', h, hsame ▸ h'⟩

/-! ### The flat map -/

/-- `apply` overwrites the entries or refuses, `lookup` shows the node at a path, and
`filesUnder` lists the paths strictly below one. -/
theorem trees_implement_map {S : Manifest Id} (ht : t.Open) (hS : Built t S root) :
    (∀ c : SparseChanges Id,
      (∀ id t', apply root c t = .ok (id, t') → ¬ Refused S.flat c.flat ∧
        ∃ t'', entries id t' = .ok (c.apply S.entries, t'')) ∧
      (∀ e, apply root c t = .error e → (∃ text, e = .invalidInput text) ∧
        (Refused S.flat c.flat ∨ TooTall MAX_DEPTH (S.flat.over c.flat)))) ∧
    (∀ p : RepoPath, p.names ≠ [] → ∃ x t', lookup root p t = .ok (x, t') ∧
      (∀ e, x = some (.file e) ↔ S.entries.get? p = some e) ∧
      ((∃ id, x = some (.dir id)) ↔ ∃ q ∈ S.entries.keys, p ∈ q.ancestors)) ∧
    (∀ p : RepoPath, p.names ≠ [] → ∃ l t', filesUnder root p t = .ok (l, t') ∧ l.Nodup ∧
      ∀ q, q ∈ l ↔ q ∈ S.entries.keys ∧ p ∈ q.ancestors) := by
  have hroot := hS.isTree
  have hvalid := validBelow_flat S
  refine ⟨fun c => ⟨fun id t' h => ?_, fun e h => ?_⟩, fun p hp => ?_, fun p hp => ?_⟩
  · obtain ⟨hs, hnr, htree⟩ := (ht.post_apply hroot c).of_ok h
    obtain ⟨S', hS', hflat⟩ := exists_snapshot htree
    rw [← hflat] at htree
    have hpost : Post Chunk.WellFormed (entries id) t' (fun m _ => mapFlat m = S'.flat)
        (fun _ => False) := post_entries hs.coherent htree (validBelow_flat S')
    obtain ⟨m, t'', hm, _, heq⟩ := hpost.exists_ok
    have hent : m = S'.entries := SortedMap.ext (fun k => congrFun heq k.names)
    exact ⟨hnr, t'', by rw [hm, hent, hS']⟩
  · exact (ht.post_apply hroot c).of_error h
  · have hpost : Post Chunk.WellFormed (lookup root p) t (fun x t' =>
        NodeAt (SubDir t'.Has (MAX_DEPTH - p.names.length)) (S.flat p.names) (under S.flat p.names) x)
        (fun _ => False) := post_lookupNames ht.coherent hp hroot
    obtain ⟨x, t', hx, _, hnode⟩ := hpost.exists_ok
    refine ⟨x, t', hx, fun e => ?_, ?_⟩
    · have hfile : S.entries.get? p = x.bind Node.file? := hnode.file_eq.symm
      rw [hfile]
      match x with
      | none => simp
      | some (.file e') => simp [Node.file?]
      | some (.dir id) => simp [Node.file?]
    · rw [exists_below_iff S hp]
      rcases hnode.dir_eq with ⟨hd, hempty⟩ | ⟨id, hd, hne, _⟩
      · refine iff_of_false ?_ (not_not.mpr hempty)
        rintro ⟨id, rfl⟩
        cases hd
      · refine iff_of_true ⟨id, ?_⟩ hne
        match x, hd with
        | some (.dir _), hd => rw [Option.some.inj hd]
  · have hpost : Post Chunk.WellFormed (filesUnder root p) t (fun l _ => l.Nodup ∧
        ∀ q, q ∈ l ↔ ∃ r, r ≠ [] ∧ q = ⟨p.names ++ r⟩ ∧ S.flat (p.names ++ r) ≠ none)
        (fun _ => False) := post_filesUnder ht.coherent hroot hvalid hp
    obtain ⟨l, t', hl, _, hnodup, hmem⟩ := hpost.exists_ok
    refine ⟨l, t', hl, hnodup, fun q => ?_⟩
    rw [hmem q, mem_keys_iff, RepoPath.mem_ancestors]
    constructor
    · rintro ⟨r, hr, rfl, hs⟩
      exact ⟨hs, hp, r, hr, rfl⟩
    · rintro ⟨hs, _, r, hr, hq⟩
      rw [hq] at hs
      exact ⟨r, hr, RepoPath.names_injective hq, hs⟩

/-- The tree of the snapshot of `a`. -/
theorem trees_implement_map_one_file : ∃ (root : ℕ) (t : Trees (MemoryStore ℕ) ℕ), Built t fileA root ∧
    (∃ x t', lookup root pathA t = .ok (x, t') ∧
      (∀ e, x = some (.file e) ↔ fileA.entries.get? pathA = some e) ∧
      ((∃ id, x = some (.dir id)) ↔ ∃ q ∈ fileA.entries.keys, pathA ∈ q.ancestors)) := by
  obtain ⟨⟨root, t⟩, h⟩ := exists_of_isOk (x := build fileA emptyTrees) (by decide)
  obtain ⟨ht, hA⟩ := emptyTrees_open.built h
  exact ⟨root, t, hA, (trees_implement_map ht hA).2.1 pathA (by decide)⟩

/-! ### Differences -/

/-- `diff` holds exactly the paths whose entries differ, with their new entry, and applying it to
the first root gives the second. -/
theorem diff_exact {A B : Manifest Id} {a b : Id} (ht : t.Open) (hA : Built t A a)
    (hB : Built t B b) : ∃ c t', diff a b t = .ok (c, t') ∧
      (∀ p e, c.entries.get? p = some e ↔
        A.entries.get? p ≠ B.entries.get? p ∧ e = B.entries.get? p) ∧
      ∃ t'', apply a c t' = .ok (b, t'') := by
  have ha := hA.isTree
  have hb := hB.isTree
  have hpost : Post Chunk.WellFormed (diff a b) t (fun c _ => c.flat = Flat.diff A.flat B.flat)
      (fun _ => False) := post_diff ht.coherent ha hb (validBelow_flat A) (validBelow_flat B)
  obtain ⟨c, t', hc, hs, hflat⟩ := hpost.exists_ok
  have hover : A.flat.over c.flat = B.flat := by
    rw [hflat, Flat.over_diff]
  refine ⟨c, t', hc, fun p e => ?_, ?_⟩
  · have hp : c.entries.get? p = Flat.diff A.flat B.flat p.names := congrFun hflat p.names
    rw [hp]
    exact Flat.diff_eq_some
  · have happly := (ht.step hs).post_apply (IsDir.mono hs.has ha) c
    rw [hover] at happly
    have hok : Post Chunk.WellFormed (apply a c) t' (fun id t'' => IsTree t''.Has B.flat id)
        (fun _ => False) := by
      apply happly.mono (fun _ _ _ h => h.2)
      rintro e ⟨_, hrefused | htall⟩
      · rw [hflat] at hrefused
        exact not_refused_diff B.prefixFree hrefused
      · exact hb.not_tooTall htall
    obtain ⟨id, t'', hid, _, htree⟩ := hok.exists_ok
    have hsame : id = b := IsDir.unique htree hb
    exact ⟨t'', hsame ▸ hid⟩

/-- From the snapshot of `a` to that of `b/a`. -/
theorem diff_exact_two_files : ∃ (a b : ℕ) (t : Trees (MemoryStore ℕ) ℕ), Built t fileA a ∧
    Built t fileB b ∧ ∃ c t', diff a b t = .ok (c, t') ∧
      (∀ p e, c.entries.get? p = some e ↔
        fileA.entries.get? p ≠ fileB.entries.get? p ∧ e = fileB.entries.get? p) ∧
      ∃ t'', apply a c t' = .ok (b, t'') := by
  obtain ⟨a, b, t, ht, hA, hB⟩ := exists_two_built
  exact ⟨a, b, t, hA, hB, diff_exact ht hA hB⟩

/-! ### Conflicts -/

/-- `intersections` holds both ends of every pair of a changed path and a differing path that are
equal or of which one is an ancestor of the other. -/
theorem intersections_exact {A B : Manifest Id} {base head : Id} (ht : t.Coherent)
    (hA : Built t A base) (hB : Built t B head) (c : SparseChanges Id) :
    ∃ found t', intersections base head c t = .ok (found, t') ∧
      ∀ x, x ∈ found ↔ ∃ p q, p ∈ c.entries.keys ∧ A.entries.get? q ≠ B.entries.get? q ∧
        (p = q ∨ p ∈ q.ancestors ∨ q ∈ p.ancestors) ∧ (x = p ∨ x = q) := by
  have hpost : Post Chunk.WellFormed (intersections base head c) t
      (fun found _ => ∀ x, x ∈ found ↔ Endpoint [] A.flat B.flat (fun p => c.flat p ≠ none) x)
      (fun _ => False) :=
    post_intersections ht hA.isTree hB.isTree (validBelow_flat A) (validBelow_flat B) c
  obtain ⟨found, t', hf, _, hmem⟩ := hpost.exists_ok
  refine ⟨found, t', hf, fun x => ?_⟩
  rw [hmem x]
  constructor
  · rintro ⟨p, q, hp, hq, hne, hpq, hx⟩
    have hpn : p ≠ [] := (SparseChanges.valid_of_flat hp).1
    have hpk : (⟨p⟩ : RepoPath) ∈ c.entries.keys :=
      SortedMap.mem_keys.mpr (Option.isSome_iff_ne_none.mpr hp)
    exact ⟨⟨p⟩, ⟨q⟩, hpk, hne, (comparable_iff (p := ⟨p⟩) (q := ⟨q⟩) hpn hq).mp hpq, hx⟩
  · rintro ⟨p, q, hp, hne, hpq, hx⟩
    have hvalid := c.valid p hp
    have hqn : q.names ≠ [] := (valid_of_ne (q := q.names) (validBelow_flat A)
      (validBelow_flat B) hne).1
    refine ⟨p.names, q.names, ?_, hqn, hne, (comparable_iff hvalid.1 hqn).mpr hpq, hx⟩
    exact Option.isSome_iff_ne_none.mp (SortedMap.mem_keys.mp hp)

/-- Adding `b/a` meets a later version that holds it already. -/
theorem intersections_exact_two_files : ∃ (a b : ℕ) (t : Trees (MemoryStore ℕ) ℕ), Built t fileA a ∧
    Built t fileB b ∧ ∃ found t', intersections a b addB t = .ok (found, t') ∧ pathB ∈ found := by
  obtain ⟨a, b, t, ht, hA, hB⟩ := exists_two_built
  obtain ⟨found, t', hf, hmem⟩ := intersections_exact ht.coherent hA hB addB
  refine ⟨a, b, t, hA, hB, found, t', hf, (hmem pathB).mpr ⟨pathB, pathB, ?_, ?_, Or.inl rfl, Or.inl rfl⟩⟩
  · decide
  · decide

end Trees

end Javelin
