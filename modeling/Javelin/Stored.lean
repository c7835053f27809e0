import Javelin.Acceptance
import Javelin.Height
import Javelin.Publications

/-! # Stored trees

A tree is stored (`TreeStored`) if it is the canonical tree of a snapshot, its chunks can be read and so can
the contents of its files.  It stays stored, and the World can be advanced to it (`exists_advanceToTree`). -/

namespace Javelin

open KeyedList

variable {Id : Type} [LinearOrder Id] [Encoding Id]

namespace Repository
variable {r r' : Repository Id} {S : VersionNumber → Manifest Id} {tree : Id}

/-- The tree of a snapshot, with all its chunks and contents. -/
def TreeStored (r : Repository Id) (tree : Id) : Prop :=
  ∃ T : Manifest Id, IsTree r.objects.Readable T.flat tree ∧
    ∀ p e, T.flat p = some e → r.objects.validateEntry e = .ok ()

theorem TreeStored.extends (h : r.TreeStored tree) (hext : r.objects.Extends r'.objects) : r'.TreeStored tree := by
  obtain ⟨T, htree, hvalid⟩ := h
  exact ⟨T, IsDir.mono (fun _ => hext.readable) htree, fun p e he => hext.validateEntry e _ (hvalid p e he)⟩

theorem treeStored_empty (r : Repository Id) : r.TreeStored emptyId :=
  ⟨Manifest.empty, isDir_empty (fun _ => rfl) (Or.inr rfl), fun _ _ he => by cases he⟩

/-- The head can be advanced to a stored tree under a new operation, unless its number is the last. -/
theorem exists_advanceToTree (hs : Sound r S) {op : OperationId} {world : WorldVersion Id}
    (hlast : r.versions.getLast? = some world) (hlt : world.number < MAX_VERSION)
    (hused : r.publications.get? op = none) (hnew : r.attempts.get? op = none) (hstored : r.TreeStored tree) :
    ∃ v r', r.advanceToTree op world.number tree = .ok (.accepted v, r') ∧ r'.versions = r.versions ++ [v] ∧
      v.tree = tree ∧ r'.attempts = r.attempts.insert op ⟨world.number, some tree, true, world.number + 1⟩ ∧
      r'.publications = r.publications := by
  obtain ⟨T, htree, hvalid⟩ := hstored
  have hexists : r.operationExists op = false := by
    unfold operationExists
    rw [hused]
    rfl
  obtain ⟨v, r', hok⟩ : ∃ v r', r.advanceNew world op world.number tree true = .ok (.accepted v, r') :=
    exists_advanceNew hs.chain hlast hlt htree (fun p e _ he => hvalid p e he)
  obtain ⟨objects, T', _, _, _, ha⟩ := of_advanceNew hs.chain hlast (by simp) hok
  refine ⟨v, r', (advanceIn_eq hs.chain hlast hexists hnew).trans hok, ?_⟩
  cases ha with
  | accepted c _ _ _ => exact ⟨rfl, rfl, rfl, rfl⟩

end Repository

namespace System

open Repository

/-- A tree other than the empty one can be stored. -/
theorem exists_stored {r : Repository ℕ} {S : VersionNumber → Manifest ℕ} (hs : Repository.Sound r S) :
    ∃ r₁ r₂ blob tree, r.putBlob [] = .ok (blob, r₁) ∧
      (∃ manifest, r₁.putSnapshot manifest = .ok (tree, r₂)) ∧ r₂.TreeStored tree ∧ tree ≠ emptyId ∧
      r₁ = { r with objects := r₁.objects } ∧ r₂ = { r with objects := r₂.objects } := by
  have hone : 1 ≤ 2 ^ 33 := by decide
  have hcount : 1 ≤ 2 ^ 34 := by decide
  obtain ⟨objects, hput, hblob⟩ := exists_putBlob hs.chain.honest []
  obtain ⟨_, hs₁⟩ := store_sound hs hput
  -- The snapshot with one file, whose content is the stored blob.
  obtain ⟨m, hm⟩ := Manifest.exists_apply Manifest.empty (longFiles 1 (.regular emptyBlob false))
    (longSnapshot_prefixFree hcount)
  have hflat : m.flat = longSnapshot 1 (.regular emptyBlob false) := by
    unfold Manifest.flat
    rw [hm]
    exact SparseChanges.mapFlat_apply _ _
  have hvalid : ∀ entry : FileEntry ℕ, entry = .regular emptyBlob false → objects.validateEntry entry = .ok () := by
    rintro _ rfl
    unfold Objects.validateEntry
    exact except_bind_of_ok hblob
  have hentry : ∀ p e, m.flat p = some e → e = .regular emptyBlob false := by
    intro p e he
    rw [hflat] at he
    exact ((longSnapshot_eq_some hcount).mp he).2
  obtain ⟨tree, t, hbuild, _⟩ := Trees.Post.exists_ok ((hs₁.chain.honest.open_write.post_build m).mono
    (fun _ _ _ h => h) (fun e he => not_tooTall_longSnapshot hone (hflat ▸ he.2)))
  obtain ⟨hl, _, htree⟩ := build_sound hs₁ hbuild
  have hsnapshot : ({ r with objects := objects } : Repository ℕ).putSnapshot m =
      .ok (tree, { r with objects := t.store.objects }) := by
    unfold putSnapshot
    rw [except_bind_of_ok (Objects.validateEntries_eq_ok.mpr ?_), except_bind_of_ok hbuild]
    · rfl
    · intro e he
      obtain ⟨⟨p, e'⟩, hp, rfl⟩ := List.mem_map.mp he
      exact hvalid _ (hentry p.names _ (SortedMap.get?_eq_some.mpr hp))
  refine ⟨_, _, _, tree, hput, ⟨m, hsnapshot⟩, ⟨m, htree, ?_⟩, ?_, rfl, rfl⟩
  · exact fun p e he => hl.objects.validateEntry e _ (hvalid e (hentry p e he))
  · rintro rfl
    have hempty : m.flat = fun _ => none :=
      htree.flat_eq (isDir_empty (P := fun _ => True) (d := MAX_DEPTH) (fun _ => rfl) (Or.inr rfl))
    obtain ⟨n, hn⟩ : ∃ n, n ∈ longKeys 1 := ⟨_, List.mem_cons_self⟩
    have hsome : longSnapshot 1 (.regular emptyBlob false) [n] = some (.regular emptyBlob false) :=
      (longSnapshot_eq_some hcount).mpr ⟨⟨n, hn, rfl⟩, rfl⟩
    rw [← hflat, hempty] at hsome
    cases hsome

end System

end Javelin
