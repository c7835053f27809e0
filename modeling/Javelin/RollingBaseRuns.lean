import Javelin.RollingBase
import Javelin.StackRuns

/-! # The rolling base holds what its record says

Commands run one after the other, and each may fail at any call or be stopped between two calls; other
clients go on publishing (`Run`).  Whenever the record names a version and no advance in progress and the base
is there, a scan of the base finds exactly the snapshot of that version (`Good`); `Run.base_holds` says so of
every run.

While a base is changed in place its record names an advance (`Writable`), so that only the end of the advance
has to be right (`command_apply`). -/

namespace Javelin

open KeyedList

namespace RollingBase

variable {Id : Type} [LinearOrder Id] [Encoding Id]

/-! ### The invariant -/

/-- A directory holds exactly the files of a version. -/
def Holds (r : Repository Id) (version : VersionNumber) (disk : Disk Str) : Prop :=
  r.manifestAt version = .ok (hashed disk).scan

/-- The record and the base agree, and so do the clones that were taken. -/
structure Good (s : Site Id) : Prop where
  sound : s.system.Sound
  rolling : ∀ version folder, s.store.record = some ⟨version, none⟩ → s.store.rolling = some folder →
    Holds s.system.repository version folder.disk
  clones : ∀ c ∈ s.store.clones, Holds s.system.repository c.1 c.2

/-- Other clients work on the repository; whether calls fail may change. -/
structure Elsewhere (s s' : Site Id) : Prop where
  run : System.Run s.system s'.system
  store : s'.store = s.store

theorem Elsewhere.refl (s : Site Id) : Elsewhere s s := ⟨.refl, rfl⟩

theorem Elsewhere.trans {s s₁ s' : Site Id} (h : Elsewhere s s₁) (h' : Elsewhere s₁ s') : Elsewhere s s' :=
  ⟨h.run.trans h'.run, h'.store.trans h.store⟩

theorem Holds.later {s s' : Site Id} (hs : s.system.Sound) (he : Elsewhere s s') {version : VersionNumber}
    {disk : Disk Str} (h : Holds s.system.repository version disk) :
    Holds s'.system.repository version disk := by
  obtain ⟨S, hsound⟩ := hs.repository
  obtain ⟨hl, hs'⟩ := System.Run.later he.run hs
  obtain ⟨S', hsound'⟩ := hs'.repository
  exact hl.manifestAt hsound.chain hsound'.chain version _ h

theorem Good.elsewhere {s s' : Site Id} (h : Good s) (he : Elsewhere s s') : Good s' where
  sound := (System.Run.later he.run h.sound).2
  rolling := by
    intro version folder hrecord hrolling
    rw [he.store] at hrecord hrolling
    exact (h.rolling version folder hrecord hrolling).later h.sound he
  clones := by
    intro c hc
    rw [he.store] at hc
    exact (h.clones c hc).later h.sound he

/-- What a step of a command leads to. -/
def Within (s s' : Site Id) : Prop := s'.system = s.system ∧ (Good s → Good s')

theorem Within.refl (s : Site Id) : Within s s := ⟨rfl, id⟩

/-- The judgement of this module: the steps of a command keep `Good`. -/
abbrev Command {α : Type} (p : BaseM Id α) (post : Site Id → Except (BaseError Id) α → Prop) (s : Site Id) : Prop :=
  p.Keeps Good Elsewhere Within (fun _ _ => True) post s

theorem Command.good {α : Type} {p : BaseM Id α} {post : Site Id → Except (BaseError Id) α → Prop} {s : Site Id}
    (h : Command p post s) (hg : Good s) : Command p (fun s' result => Good s' ∧ post s' result) s :=
  h.kept hg (fun _ _ hg hw => hw.2 hg)

/-! ### Single calls -/

section calls
variable {s : Site Id} {α : Type}

theorem command_call {f : StoreDir → Except (BaseError Id) StoreDir}
    {post : Site Id → Except (BaseError Id) Unit → Prop}
    (herror : ∀ s' e, Good s' → Elsewhere s s' → post s' (.error e))
    (h : ∀ s' store, Good s' → Elsewhere s s' → f s.store = .ok store →
      Good { s' with store := store } ∧ post { s' with store := store } (.ok ())) : Command (call f) post s := by
  refine Process.keeps_transact Within.refl (fun s' e hg he _ => herror s' e hg he) (fun s' a s'' hg he _ hok => ?_)
  split at hok
  · cases hok
  · obtain ⟨store, hf, hok⟩ := except_bind_eq_ok.mp hok
    cases hok
    rw [he.store] at hf
    obtain ⟨hgood, hpost⟩ := h s' store hg he hf
    exact ⟨⟨rfl, fun _ => hgood⟩, hpost⟩

theorem command_aside {post : Site Id → Except (BaseError Id) Unit → Prop}
    (h : ∀ s' result, Good s' → Elsewhere s s' → post s' result) : Command aside post s := by
  refine command_call (fun s' e hg he => h s' _ hg he) (fun s' store hg he hf => ?_)
  cases hf
  rw [← he.store]
  exact ⟨hg, h s' _ hg he⟩

theorem command_look {f : StoreDir → α} {post : Site Id → Except (BaseError Id) α → Prop}
    (herror : ∀ s' e, Good s' → Elsewhere s s' → post s' (.error e))
    (h : ∀ s', Good s' → Elsewhere s s' → post s' (.ok (f s.store))) : Command (look f) post s := by
  refine Process.keeps_read Within.refl (fun s' hg he _ => ?_)
  split
  · exact herror s' _ hg he
  · rw [he.store]
    exact h s' hg he

theorem command_query {f : Repository Id → Except (Error Id) α} {post : Site Id → Except (BaseError Id) α → Prop}
    (herror : ∀ s' e, Good s' → Elsewhere s s' → post s' (.error e))
    (h : ∀ s' a, Good s' → Elsewhere s s' → f s'.system.repository = .ok a → post s' (.ok a)) :
    Command (query f) post s := by
  refine Process.keeps_read Within.refl (fun s' hg he _ => ?_)
  split
  · exact herror s' _ hg he
  · cases hf : f s'.system.repository with
    | error e => exact herror s' _ hg he
    | ok a => exact h s' a hg he hf

end calls

/-! ### Changing one directory -/

section touching
variable {s : Site Id} {root : Root} {α : Type}

/-- Only one directory differs. -/
def Touched (root : Root) (store store' : StoreDir) : Prop := ∃ folder, store' = store.setFolder folder root

theorem Touched.refl (store : StoreDir) : Touched root store store := by
  refine ⟨store.folder root, ?_⟩
  cases root <;> rfl

theorem Touched.trans {store store₁ store' : StoreDir} (h : Touched root store store₁)
    (h' : Touched root store₁ store') : Touched root store store' := by
  obtain ⟨folder, rfl⟩ := h
  obtain ⟨folder', rfl⟩ := h'
  refine ⟨folder', ?_⟩
  cases root <;> rfl

/-- A directory that the record does not vouch for. -/
def Writable (root : Root) (store : StoreDir) : Prop :=
  root = .staging ∨ ∀ version, store.record ≠ some ⟨version, none⟩

theorem Touched.record {store store' : StoreDir} (h : Touched root store store') :
    store'.record = store.record := by
  obtain ⟨folder, rfl⟩ := h
  cases root <;> rfl

theorem Writable.touched {store store' : StoreDir} (h : Writable root store) (ht : Touched root store store') :
    Writable root store' := by
  unfold Writable
  rw [ht.record]
  exact h

theorem Good.touched {store : StoreDir} (h : Good s) (hw : Writable root s.store)
    (ht : Touched root s.store store) : Good { s with store := store } := by
  obtain ⟨folder, rfl⟩ := ht
  refine ⟨h.sound, fun version base hrecord hrolling => ?_, ?_⟩
  · cases hw with
    | inl hroot =>
        rw [hroot] at hrecord hrolling
        exact h.rolling version base hrecord hrolling
    | inr hfree =>
        cases root with
        | rolling => exact absurd hrecord (hfree version)
        | staging => exact absurd hrecord (hfree version)
  · cases root with
    | rolling => exact h.clones
    | staging => exact h.clones

theorem folder_setFolder (store : StoreDir) (folder : Option Folder) (root : Root) :
    (store.setFolder folder root).folder root = folder := by
  cases root <;> rfl

theorem command_onDisk {f : Disk Str → Except (BaseError Id) (Disk Str)} (hw : Writable root s.store) :
    Command (onDisk root f) (fun s' result => Touched root s.store s'.store ∧
      (∀ e, result = .error e → s'.store = s.store) ∧
      (result = .ok () → ∃ folder disk, s.store.folder root = some folder ∧ f folder.disk = .ok disk ∧
        s'.store.folder root = some { folder with disk := disk })) s := by
  refine command_call (fun s' e _ he => ⟨he.store ▸ Touched.refl _, fun _ _ => he.store, fun h => by cases h⟩)
    (fun s' store hg he hf => ?_)
  split at hf
  · cases hf
  · rename_i folder hfolder
    obtain ⟨disk, hdisk, hf⟩ := except_bind_eq_ok.mp hf
    cases hf
    have ht : Touched root s.store (s.store.setFolder (some { folder with disk := disk }) root) := ⟨_, rfl⟩
    refine ⟨hg.touched (he.store ▸ hw) (he.store ▸ ht), ht, fun _ h => (by cases h), fun _ => ?_⟩
    exact ⟨folder, disk, hfolder, hdisk, folder_setFolder _ _ _⟩

/-- The files of a directory, their contents given by the IDs. -/
def Contains (root : Root) (store : StoreDir) (files : RepoPath → Option (FileEntry Id)) : Prop :=
  ∃ folder, store.folder root = some folder ∧ ∀ p, (hashed folder.disk).file p = files p

/-- A call that a directory may refuse changes its files as it says. -/
theorem command_files {known : Prop} {files : RepoPath → Option (FileEntry Id)}
    (files' : RepoPath → Option (FileEntry Id)) {f : Disk Str → Except (BaseError Id) (Disk Str)}
    (hw : Writable root s.store) (hc : known → Contains root s.store files)
    (hf : ∀ disk disk', (∀ p, (hashed disk : Disk Id).file p = files p) → f disk = .ok disk' →
      ∀ p, (hashed disk' : Disk Id).file p = files' p) :
    Command (onDisk root f) (fun s' result => Touched root s.store s'.store ∧
      (∀ e, result = .error e → s'.store = s.store) ∧
      (result = .ok () → known → Contains root s'.store files')) s := by
  refine (command_onDisk hw).imp (fun s' result hpost => ⟨hpost.1, hpost.2.1, fun hok hk => ?_⟩)
  obtain ⟨folder, disk, hfolder, hdisk, hfolder'⟩ := hpost.2.2 hok
  obtain ⟨folder₀, hfolder₀, hfiles⟩ := hc hk
  obtain rfl := Option.some.inj (hfolder.symm.trans hfolder₀)
  exact ⟨_, hfolder', hf _ _ hfiles hdisk⟩

end touching

/-! ### Files after one call -/

section files
variable {disk disk' : Disk Str} {path : RepoPath}

omit [LinearOrder Id] in
theorem file_hashed (disk : Disk Str) (p : RepoPath) : (hashed disk : Disk Id).file p =
    (disk.file p).map (FileEntry.map (fun bytes => objectId (.blob bytes : Object Id))) :=
  Disk.file_map _ _ _

theorem file_unlink (h : disk.unlink path = some disk') (p : RepoPath) :
    disk'.file p = if path = p then none else disk.file p := by
  cases hat : disk.at? path with
  | none =>
      unfold Disk.unlink at h
      split at h
      · rename_i hfile
        rw [hat] at hfile
        cases hfile
      · cases h
  | some found =>
      cases found with
      | dir =>
          unfold Disk.unlink at h
          split at h
          · rename_i hfile
            rw [hat] at hfile
            cases hfile
          · cases h
      | file entry =>
          obtain ⟨d, hd, hspec⟩ := Disk.unlink_spec hat
          obtain rfl := Option.some.inj (hd.symm.trans h)
          by_cases hp : path = p
          · rw [if_pos hp, Disk.file_eq_none_of_at?]
            rw [hspec, if_pos hp]
          · rw [if_neg hp]
            exact Disk.file_eq_of_at? (by rw [hspec, if_neg hp])

theorem file_rmdir (h : disk.rmdir path = some disk') (p : RepoPath) : disk'.file p = disk.file p := by
  have hdir : disk.at? path = some .dir := by
    unfold Disk.rmdir at h
    split at h
    · rename_i hp
      exact hp.1
    · cases h
  have hspec := (Disk.rmdir_eq_some h).2 p
  by_cases hp : path = p
  · rw [if_pos hp] at hspec
    rw [Disk.file_eq_none_of_at? hspec, ← hp, Disk.file_eq_none_of_dir hdir]
  · rw [if_neg hp] at hspec
    exact Disk.file_eq_of_at? hspec

theorem file_create_dir (h : disk.create path .dir = .ok disk') (p : RepoPath) : disk'.file p = disk.file p := by
  obtain ⟨hnone, hspec⟩ := Disk.at?_create h
  have hspec := hspec p
  by_cases hp : path = p
  · rw [if_pos hp] at hspec
    rw [Disk.file_eq_none_of_dir hspec, ← hp, Disk.file_eq_none_of_at? hnone]
  · rw [if_neg hp] at hspec
    exact Disk.file_eq_of_at? hspec

theorem file_create_file {entry : FileEntry Str} (h : disk.create path (.file entry) = .ok disk') (p : RepoPath) :
    disk'.file p = if path = p then some entry else disk.file p := by
  have hspec := (Disk.at?_create h).2 p
  by_cases hp : path = p
  · rw [if_pos hp] at hspec ⊢
    exact Disk.file_eq_some.mpr hspec
  · rw [if_neg hp] at hspec ⊢
    exact Disk.file_eq_of_at? hspec

theorem file_rename {entry : FileEntry Str} (h : disk.rename path entry = some disk') (p : RepoPath) :
    disk'.file p = if path = p then some entry else disk.file p := by
  unfold Disk.rename at h
  split at h
  · cases h
    by_cases hp : path = p
    · rw [if_pos hp]
      exact Disk.file_eq_some.mpr ((SortedMap.get?_insert _ _ _ _).trans (if_pos hp))
    · rw [if_neg hp]
      exact Disk.file_eq_of_at? ((SortedMap.get?_insert _ _ _ _).trans (if_neg hp))
  · cases h

omit [LinearOrder Id] [Encoding Id] in
theorem refusable_eq_ok {x : Option (Disk Str)} :
    (refusable x : Except (BaseError Id) _) = .ok disk ↔ x = some disk := by
  cases x with
  | none =>
      constructor
      · intro h
        cases h
      · intro h
        cases h
  | some d => exact ⟨fun h => congrArg some (Except.ok.inj h), fun h => congrArg Except.ok (Option.some.inj h)⟩

omit [LinearOrder Id] [Encoding Id] in
theorem fresh_eq_ok {x : Except CallError (Disk Str)} :
    (fresh path x : Except (BaseError Id) _) = .ok disk ↔ x = .ok disk := by
  cases x with
  | error e =>
      constructor
      · intro h
        cases e <;> cases h
      · intro h
        cases h
  | ok d => exact ⟨fun h => congrArg Except.ok (Except.ok.inj h), fun h => congrArg Except.ok (Except.ok.inj h)⟩

end files

/-! ### Reads of the repository -/

section reads
variable {r : Repository Id} {S : VersionNumber → Manifest Id}

theorem version_of_manifestAt (h : Repository.Chain r S) {version : VersionNumber} {m : Manifest Id}
    (hm : r.manifestAt version = .ok m) : (∃ v, r.versions[version]? = some v) ∧ m = S version := by
  have hread := hm
  unfold Repository.manifestAt at hread
  obtain ⟨v, hv, _⟩ := except_bind_eq_ok.mp hread
  have hv := h.versionIn_eq_ok.mp hv
  exact ⟨⟨v, hv⟩, Except.ok.inj (hm.symm.trans (h.manifestAt_eq hv))⟩

theorem entryAt_eq (h : Repository.Chain r S) {version : VersionNumber} {m : Manifest Id}
    (hm : r.manifestAt version = .ok m) {path : RepoPath} (hne : path.names ≠ []) {entry : Option (FileEntry Id)} {t' : Trees (Sql Id) Id}
    (hentry : r.index.entryAt path version (r.objects.trees .verify) = .ok (entry, t')) :
    entry = m.entries.get? path := by
  obtain ⟨⟨v, hv⟩, rfl⟩ := version_of_manifestAt h hm
  have hindex : r.index.Answers (fun _ => False) version (S version).flat
      (fun e => r.objects.validateEntry e = .ok ()) (r.objects.trees .verify) :=
    WorldIndex.answers_over (Trees.Coherent.new _) (h.treeIn_eq_ok.mpr ⟨v, hv, rfl⟩)
      (Objects.isTree_trees.mpr (h.tree version v hv)) (Trees.validBelow_flat (S version))
  have hruns := hindex.entryAt _ (Trees.Step.refl hindex.coherent) path hne
  exact (Trees.Post.of_ok hruns hentry).2

theorem diff_eq (h : Repository.Chain r S) {source target : VersionNumber} {old new : Id}
    (hold : r.treeIn source = .ok old) (hnew : r.treeIn target = .ok new) {changes : SparseChanges Id} {t' : Trees (Sql Id) Id}
    (hdiff : Trees.diff old new (r.objects.trees .verify) = .ok (changes, t')) :
    r.manifestAt source = .ok (S source) ∧ r.manifestAt target = .ok (S target) ∧
      changes.flat = Flat.diff (S source).flat (S target).flat := by
  obtain ⟨v, hv, rfl⟩ := h.treeIn_eq_ok.mp hold
  obtain ⟨w, hw, rfl⟩ := h.treeIn_eq_ok.mp hnew
  refine ⟨h.manifestAt_eq hv, h.manifestAt_eq hw, ?_⟩
  have hpost : Trees.Post (fun _ => False) (Trees.diff v.tree w.tree) (r.objects.trees .verify)
      (fun c _ => c.flat = Flat.diff (S source).flat (S target).flat) (fun _ => False) :=
    Trees.post_diff (Trees.Coherent.new _) (Objects.isTree_trees.mpr (h.tree source v hv))
      (Objects.isTree_trees.mpr (h.tree target w hw)) (Trees.validBelow_flat _) (Trees.validBelow_flat _)
  exact (hpost.of_ok hdiff).2

theorem objectId_of_readBlob {content : Id} {bytes : Str}
    (hread : r.objects.readBlob content = .ok bytes) : objectId (.blob bytes : Object Id) = content := by
  unfold Objects.readBlob at hread
  obtain ⟨object, hobject, hread⟩ := except_bind_eq_ok.mp hread
  split at hread
  · cases hread
    exact (Objects.read_eq_ok.mp hobject).2.1
  · cases hread

end reads

/-! ### Applying changes -/

section applying
variable {s : Site Id} {root : Root} {before : Before} {known : Prop}

/-- The files a directory held before changes are applied to it. -/
def Before.Answers (before : Before) (s : Site Id) (files : RepoPath → Option (FileEntry Id)) : Prop :=
  match before with
  | .nothing => ∀ p, files p = none
  | .at version => ∃ m, s.system.repository.manifestAt version = .ok m ∧ ∀ p, files p = m.entries.get? p

theorem Before.Answers.elsewhere {s' : Site Id} {files : RepoPath → Option (FileEntry Id)}
    (h : before.Answers s files) (hg : Good s) (he : Elsewhere s s') : before.Answers s' files := by
  cases before with
  | nothing => exact h
  | «at» version =>
      obtain ⟨m, hm, hfiles⟩ := h
      obtain ⟨S, hs⟩ := hg.sound.repository
      obtain ⟨hl, hs'⟩ := System.Run.later he.run hg.sound
      obtain ⟨S', hs'⟩ := hs'.repository
      exact ⟨m, hl.manifestAt hs.chain hs'.chain version m hm, hfiles⟩

/-- Wherever a command ends, the invariant and the answers hold. -/
theorem Command.onward {α : Type} {p : BaseM Id α} {post : Site Id → Except (BaseError Id) α → Prop}
    {files : RepoPath → Option (FileEntry Id)} (h : Command p post s) (hg : Good s)
    (hb : known → before.Answers s files) :
    Command p (fun s' result => Good s' ∧ (known → before.Answers s' files) ∧ post s' result) s := by
  have hsystem : ∀ s s' : Site Id, s'.system = s.system → before.Answers s files → before.Answers s' files := by
    intro s s' he hb
    cases before with
    | nothing => exact hb
    | «at» version =>
        obtain ⟨m, hm, hfiles⟩ := hb
        exact ⟨m, by rw [he]; exact hm, hfiles⟩
  have hsince := h.since (R := fun s s' => Good s → Good s' ∧ (before.Answers s files → before.Answers s' files))
    (fun s hg => ⟨hg, id⟩) (fun s₁ s₂ s₃ h h' hg => ⟨(h' (h hg).1).1, fun hb => (h' (h hg).1).2 ((h hg).2 hb)⟩)
    (fun s s' he hg => ⟨hg.elsewhere he, fun hb => hb.elsewhere hg he⟩)
    (fun s s' hw hg => ⟨hw.2 hg, hsystem s s' hw.1⟩)
  exact hsince.imp (fun s' result hpost => ⟨(hpost.1 hg).1, fun hk => (hpost.1 hg).2 (hb hk), hpost.2⟩)

theorem command_before {path : RepoPath} {files : RepoPath → Option (FileEntry Id)} (hg : Good s)
    (hne : known → path.names ≠ []) (hb : known → before.Answers s files) :
    Command (before.file path) (fun s' result => s'.store = s.store ∧
      ∀ b, result = .ok b → known → b = (files path).isSome) s := by
  cases before with
  | nothing =>
      refine ⟨rfl, fun b h hk => ?_⟩
      cases h
      rw [hb hk path]
      rfl
  | «at» version =>
      unfold Before.file
      refine command_query (fun s' e _ he => ⟨he.store, fun b h => by cases h⟩)
        (fun s' a hg' he ha => ⟨he.store, fun b h hk => ?_⟩)
      cases h
      obtain ⟨⟨entry, t'⟩, hentry, hpure⟩ := except_bind_eq_ok.mp ha
      cases hpure
      obtain ⟨m, hm, hfiles⟩ := (hb hk).elsewhere hg he
      obtain ⟨S, hs⟩ := hg'.sound.repository
      rw [entryAt_eq hs.chain hm (hne hk) hentry, hfiles]

theorem command_dir {path : RepoPath} :
    Command (before.dir path : BaseM Id Bool) (fun s' _ => s'.store = s.store) s := by
  cases before with
  | nothing => exact rfl
  | «at» version =>
      unfold Before.dir
      exact command_query (fun s' e _ he => he.store) (fun s' a _ he _ => he.store)

theorem command_removeParents {files : RepoPath → Option (FileEntry Id)} {dirs removed : List RepoPath}
    (hw : Writable root s.store) (hc : known → Contains root s.store files) :
    Command (removeParents root dirs removed) (fun s' _ => Touched root s.store s'.store ∧
      (known → Contains root s'.store files)) s := by
  induction dirs generalizing s removed with
  | nil => exact ⟨Touched.refl _, hc⟩
  | cons dir dirs ih =>
      have hstep := command_files files (f := fun disk => refusable (disk.rmdir dir)) hw hc (by
        intro disk disk' hfiles hdisk p
        rw [file_hashed, file_rmdir (refusable_eq_ok.mp hdisk), ← file_hashed, hfiles])
      refine Process.keeps_bind (Process.keeps_caught (hstep.imp (fun s₁ result hpost => ?_)))
      obtain ⟨ht, hsame, hfiles⟩ := hpost
      cases result with
      | error e =>
          refine ⟨ht, fun hk => ?_⟩
          rw [hsame e rfl]
          exact hc hk
      | ok u =>
          refine (ih (hw.touched ht) (hfiles rfl)).imp (fun s₂ result hpost => ?_)
          exact ⟨ht.trans hpost.1, hpost.2⟩

/-- Removes every path that was a file before. -/
theorem command_removeAll {files : RepoPath → Option (FileEntry Id)} {changes : List (Write Id)}
    {done removed : List RepoPath} (hg : Good s) (hw : Writable root s.store)
    (hne : known → ∀ c ∈ changes, c.1.names ≠ []) (hb : known → before.Answers s files)
    (hc : known → Contains root s.store (fun p => if p ∈ done then none else files p)) :
    Command (removeAll root before changes removed) (fun s' result => Touched root s.store s'.store ∧
      ∀ removed', result = .ok removed' → known →
        Contains root s'.store (fun p => if p ∈ done ∨ p ∈ changes.map Prod.fst then none else files p)) s := by
  induction changes generalizing s done removed with
  | nil => exact ⟨Touched.refl _, fun _ _ hk => by simpa using hc hk⟩
  | cons change changes ih =>
      obtain ⟨path, new⟩ := change
      have hnext : ∀ p, (p ∈ path :: done ∨ p ∈ changes.map Prod.fst) ↔
          (p ∈ done ∨ p ∈ ((path, new) :: changes).map Prod.fst) := by
        intro p
        simp only [List.mem_cons, List.map_cons]
        tauto
      have hrest : known → ∀ c ∈ changes, c.1.names ≠ [] := fun hk c hm => hne hk c (List.mem_cons_of_mem _ hm)
      refine Process.keeps_bind (((command_before hg (fun hk => (hne hk _ List.mem_cons_self)) hb).onward hg hb).imp
        (fun s₁ result hpost => ?_))
      obtain ⟨hg₁, hb₁, hsame, hfile⟩ := hpost
      have ht₁ : Touched root s.store s₁.store := hsame ▸ Touched.refl _
      have hw₁ := hw.touched ht₁
      have hc₁ : known → Contains root s₁.store (fun p => if p ∈ done then none else files p) :=
        fun hk => hsame ▸ hc hk
      cases result with
      | error e => exact ⟨ht₁, fun _ h => by cases h⟩
      | ok present =>
          cases present with
          | false =>
              have hc₂ : known → Contains root s₁.store (fun p => if p ∈ path :: done then none else files p) := by
                intro hk
                have hnone : files path = none := by simpa using (hfile false rfl hk).symm
                obtain ⟨folder, hfolder, hfiles⟩ := hc₁ hk
                refine ⟨folder, hfolder, fun p => (hfiles p).trans ?_⟩
                by_cases hp : p = path
                · simp [hp, hnone]
                · simp [hp]
              refine (ih hg₁ hw₁ hrest hb₁ hc₂).imp
                (fun s₂ result hpost => ⟨ht₁.trans hpost.1, fun removed' h hk => ?_⟩)
              simpa only [hnext] using hpost.2 removed' h hk
          | true =>
              have hunlink := command_files
                (fun p => if p ∈ path :: done then none else files p)
                (f := fun disk => refusable (disk.unlink path)) hw₁ hc₁ (by
                  intro disk disk' hfiles hdisk p
                  rw [file_hashed, file_unlink (refusable_eq_ok.mp hdisk)]
                  by_cases hp : path = p
                  · simp [hp]
                  · rw [if_neg hp, ← file_hashed, hfiles]
                    simp [Ne.symm hp])
              refine Process.keeps_bind ((hunlink.onward hg₁ hb₁).imp (fun s₂ result hpost => ?_))
              obtain ⟨hg₂, hb₂, ht₂, _, hc₂⟩ := hpost
              cases result with
              | error e => exact ⟨ht₁.trans ht₂, fun _ h => by cases h⟩
              | ok u =>
                  refine Process.keeps_bind
                    (((command_removeParents (hw₁.touched ht₂) (hc₂ rfl)).onward hg₂ hb₂).imp
                      (fun s₃ result hpost => ?_))
                  obtain ⟨hg₃, hb₃, ht₃, hc₃⟩ := hpost
                  have ht := (ht₁.trans ht₂).trans ht₃
                  cases result with
                  | error e => exact ⟨ht, fun _ h => by cases h⟩
                  | ok removed' =>
                      refine (ih hg₃ (hw.touched ht) hrest hb₃ hc₃).imp
                        (fun s₄ result hpost => ⟨ht.trans hpost.1, fun removed'' h hk => ?_⟩)
                      simpa only [hnext] using hpost.2 removed'' h hk

theorem command_makeParents {files : RepoPath → Option (FileEntry Id)} {removed dirs made : List RepoPath}
    (hw : Writable root s.store) (hc : known → Contains root s.store files) :
    Command (makeParents root before removed dirs made) (fun s' _ => Touched root s.store s'.store ∧
      (known → Contains root s'.store files)) s := by
  induction dirs generalizing s made with
  | nil => exact ⟨Touched.refl _, hc⟩
  | cons dir dirs ih =>
      have hstands : Command
          (if dir ∈ made then pure true else if dir ∈ removed then pure false else before.dir dir)
          (fun s' _ => s'.store = s.store) s := by
        split
        · exact rfl
        · split
          · exact rfl
          · exact command_dir
      refine Process.keeps_bind (hstands.imp (fun s₁ result hsame => ?_))
      have ht₁ : Touched root s.store s₁.store := hsame ▸ Touched.refl _
      have hc₁ : known → Contains root s₁.store files := fun hk => hsame ▸ hc hk
      cases result with
      | error e => exact ⟨ht₁, hc₁⟩
      | ok stands =>
          cases stands with
          | true =>
              refine (ih (hw.touched ht₁) hc₁).imp (fun s₂ result hpost => ⟨ht₁.trans hpost.1, hpost.2⟩)
          | false =>
              have hcreate := command_files files
                (f := fun disk => fresh dir (disk.create dir .dir)) (hw.touched ht₁) hc₁ (by
                  intro disk disk' hfiles hdisk p
                  rw [file_hashed, file_create_dir (fresh_eq_ok.mp hdisk), ← file_hashed, hfiles])
              refine Process.keeps_bind (hcreate.imp (fun s₂ result hpost => ?_))
              obtain ⟨ht₂, hsame₂, hc₂⟩ := hpost
              cases result with
              | error e => exact ⟨ht₁.trans ht₂, fun hk => hsame₂ e rfl ▸ hc₁ hk⟩
              | ok u =>
                  refine (ih ((hw.touched ht₁).touched ht₂) (hc₂ rfl)).imp
                    (fun s₃ result hpost => ⟨(ht₁.trans ht₂).trans hpost.1, hpost.2⟩)

/-- Writes one entry, whose content is what the repository stores under its ID. -/
theorem command_writeEntry {files : RepoPath → Option (FileEntry Id)} {path : RepoPath} {entry : FileEntry Id}
    (hw : Writable root s.store) (hc : known → Contains root s.store files) :
    Command (writeEntry root path entry) (fun s' result => Touched root s.store s'.store ∧
      ∀ n, result = .ok n → known →
        Contains root s'.store (fun p => if path = p then some entry else files p)) s := by
  cases entry with
  | regular content executable =>
      refine Process.keeps_bind (command_query (fun s₁ e _ he => ⟨he.store ▸ Touched.refl _, fun _ h => by cases h⟩)
        (fun s₁ bytes _ he hread => ?_))
      have ht₁ : Touched root s.store s₁.store := he.store ▸ Touched.refl _
      have hc₁ : known → Contains root s₁.store files := fun hk => he.store ▸ hc hk
      have hcreate := command_files
        (fun p => if path = p then some (.regular (objectId (.blob [] : Object Id)) executable) else files p)
        (f := fun disk => fresh path (disk.create path (.file (.regular [] executable)))) (hw.touched ht₁) hc₁ (by
          intro disk disk' hfiles hdisk p
          rw [file_hashed, file_create_file (fresh_eq_ok.mp hdisk), ← hfiles, file_hashed]
          split <;> rfl)
      refine Process.keeps_bind (hcreate.imp (fun s₂ result hpost => ?_))
      obtain ⟨ht₂, _, hc₂⟩ := hpost
      have ht₂ := ht₁.trans ht₂
      cases result with
      | error e => exact ⟨ht₂, fun _ h => by cases h⟩
      | ok u =>
          have hfill := command_files
            (fun p => if path = p then some (.regular content executable) else files p)
            (f := fun disk => refusable (disk.rename path (.regular bytes executable))) (hw.touched ht₂)
            (hc₂ rfl) (by
              intro disk disk' hfiles hdisk p
              have hp := hfiles p
              rw [file_hashed] at hp
              rw [file_hashed, file_rename (refusable_eq_ok.mp hdisk)]
              split
              · rw [← objectId_of_readBlob hread]
                rfl
              · rename_i hne
                rw [if_neg hne] at hp
                exact hp)
          refine Process.keeps_bind (hfill.imp (fun s₃ result hpost => ?_))
          obtain ⟨ht₃, _, hc₃⟩ := hpost
          have ht₃ := ht₂.trans ht₃
          cases result with
          | error e => exact ⟨ht₃, fun _ h => by cases h⟩
          | ok u =>
              refine Process.keeps_bind (command_aside (fun s₄ result _ he => ?_))
              cases result with
              | error e => exact ⟨he.store ▸ ht₃, fun _ h => by cases h⟩
              | ok u => exact ⟨he.store ▸ ht₃, fun _ _ hk => he.store ▸ hc₃ rfl hk⟩
  | symlink target =>
      refine Process.keeps_bind (command_query (fun s₁ e _ he => ⟨he.store ▸ Touched.refl _, fun _ h => by cases h⟩)
        (fun s₁ bytes _ he hread => ?_))
      have ht₁ : Touched root s.store s₁.store := he.store ▸ Touched.refl _
      have hc₁ : known → Contains root s₁.store files := fun hk => he.store ▸ hc hk
      have hcreate := command_files
        (fun p => if path = p then some (.symlink target) else files p)
        (f := fun disk => fresh path (disk.create path (.file (.symlink bytes)))) (hw.touched ht₁) hc₁ (by
          intro disk disk' hfiles hdisk p
          rw [file_hashed, file_create_file (fresh_eq_ok.mp hdisk), ← hfiles, file_hashed]
          split
          · rw [← objectId_of_readBlob hread]
            rfl
          · rfl)
      refine Process.keeps_bind (hcreate.imp (fun s₂ result hpost => ?_))
      obtain ⟨ht₂, _, hc₂⟩ := hpost
      cases result with
      | error e => exact ⟨ht₁.trans ht₂, fun _ h => by cases h⟩
      | ok u => exact ⟨ht₁.trans ht₂, fun _ _ hk => hc₂ rfl hk⟩

/-- The files after new entries were put in place, the last one of a path counting. -/
def placed (files : RepoPath → Option (FileEntry Id)) : List (Write Id) → RepoPath → Option (FileEntry Id)
  | [] => files
  | (_, none) :: changes => placed files changes
  | (path, some entry) :: changes => placed (fun p => if path = p then some entry else files p) changes

theorem command_writeAll {files : RepoPath → Option (FileEntry Id)} {changes : List (Write Id)}
    {removed made : List RepoPath} {written : ℕ} (hw : Writable root s.store)
    (hc : known → Contains root s.store files) :
    Command (writeAll root before removed changes made written) (fun s' result => Touched root s.store s'.store ∧
      ∀ n, result = .ok n → known → Contains root s'.store (placed files changes)) s := by
  induction changes generalizing s made written files with
  | nil => exact ⟨Touched.refl _, fun _ _ => hc⟩
  | cons change changes ih =>
      obtain ⟨path, new⟩ := change
      cases new with
      | none => exact ih hw hc
      | some entry =>
          refine Process.keeps_bind ((command_makeParents hw hc).imp (fun s₁ result hpost => ?_))
          obtain ⟨ht₁, hc₁⟩ := hpost
          cases result with
          | error e => exact ⟨ht₁, fun _ h => by cases h⟩
          | ok made =>
              refine Process.keeps_bind ((command_writeEntry (hw.touched ht₁) hc₁).imp (fun s₂ result hpost => ?_))
              obtain ⟨ht₂, hc₂⟩ := hpost
              have ht₂ := ht₁.trans ht₂
              cases result with
              | error e => exact ⟨ht₂, fun _ h => by cases h⟩
              | ok bytes =>
                  refine (ih (hw.touched ht₂) (hc₂ bytes rfl)).imp
                    (fun s₃ result hpost => ⟨ht₂.trans hpost.1, hpost.2⟩)

/-- Applies changes: only the one directory is touched, and if all goes well its files are the new ones. -/
theorem command_apply {files : RepoPath → Option (FileEntry Id)} {changes : List (Write Id)} (hg : Good s)
    (hw : Writable root s.store) (hne : known → ∀ c ∈ changes, c.1.names ≠ [])
    (hb : known → before.Answers s files) (hc : known → Contains root s.store files) :
    Command (apply root before changes) (fun s' result => Touched root s.store s'.store ∧
      ∀ n, result = .ok n → known → Contains root s'.store
        (placed (fun p => if p ∈ changes.map Prod.fst then none else files p) changes)) s := by
  have hc₀ : known → Contains root s.store (fun p => if p ∈ ([] : List RepoPath) then none else files p) := by
    intro hk
    simpa using hc hk
  refine Process.keeps_bind (((command_removeAll hg hw hne hb hc₀).good hg).imp (fun s₁ result hpost => ?_))
  obtain ⟨hg₁, ht₁, hc₁⟩ := hpost
  cases result with
  | error e => exact ⟨ht₁, fun _ h => by cases h⟩
  | ok removed =>
      have hc₁ : known → Contains root s₁.store (fun p => if p ∈ changes.map Prod.fst then none else files p) := by
        intro hk
        simpa only [List.not_mem_nil, false_or] using hc₁ removed rfl hk
      refine Process.keeps_bind ((command_writeAll (hw.touched ht₁) hc₁).imp (fun s₂ result hpost => ?_))
      obtain ⟨ht₂, hc₂⟩ := hpost
      cases result with
      | error e => exact ⟨ht₁.trans ht₂, fun _ h => by cases h⟩
      | ok written => exact ⟨ht₁.trans ht₂, fun _ _ hk => hc₂ written rfl hk⟩

end applying

/-! ### The files after an application -/

section placing
variable {files : RepoPath → Option (FileEntry Id)}

omit [LinearOrder Id] [Encoding Id] in
theorem placed_of_not_mem {changes : List (Write Id)} {p : RepoPath} (h : ∀ entry, (p, some entry) ∉ changes) :
    placed files changes p = files p := by
  induction changes generalizing files with
  | nil => rfl
  | cons change changes ih =>
      obtain ⟨path, new⟩ := change
      have hrest : ∀ entry, (p, some entry) ∉ changes := fun entry hm => h entry (List.mem_cons_of_mem _ hm)
      cases new with
      | none => exact ih hrest
      | some entry =>
          have hne : path ≠ p := by
            intro he
            exact h entry (by rw [he]; exact List.mem_cons_self)
          exact (ih hrest).trans (if_neg hne)

omit [LinearOrder Id] [Encoding Id] in
theorem placed_of_mem {changes : List (Write Id)} (hnodup : (changes.map Prod.fst).Nodup) {p : RepoPath}
    {entry : FileEntry Id} (h : (p, some entry) ∈ changes) : placed files changes p = some entry := by
  induction changes generalizing files with
  | nil => cases h
  | cons change changes ih =>
      obtain ⟨path, new⟩ := change
      rw [List.map_cons, List.nodup_cons] at hnodup
      cases List.mem_cons.mp h with
      | inl he =>
          cases he
          have hrest : ∀ entry', (p, some entry') ∉ changes :=
            fun entry' hm => hnodup.1 (List.mem_map.mpr ⟨_, hm, rfl⟩)
          exact (placed_of_not_mem hrest).trans (if_pos rfl)
      | inr hm =>
          cases new with
          | none => exact ih hnodup.2 hm
          | some e => exact ih hnodup.2 hm

omit [Encoding Id] in
/-- Applying the difference of two snapshots to the first gives the second. -/
theorem placed_diff {m m' : Manifest Id} {changes : SparseChanges Id} (h : changes.flat = Flat.diff m.flat m'.flat)
    (p : RepoPath) :
    placed (fun p => if p ∈ changes.entries.toList.map Prod.fst then none else m.entries.get? p)
      changes.entries.toList p = m'.entries.get? p := by
  have hp : changes.entries.get? p = Flat.diff m.flat m'.flat p.names := congrFun h p.names
  cases hget : changes.entries.get? p with
  | none =>
      have hkeys : p ∉ changes.entries.toList.map Prod.fst := SortedMap.get?_eq_none.mp hget
      rw [placed_of_not_mem (fun entry hm => hkeys (List.mem_map.mpr ⟨_, hm, rfl⟩)), if_neg hkeys]
      rw [hget] at hp
      exact Flat.diff_eq_none.mp hp.symm
  | some change =>
      have hmem := SortedMap.get?_eq_some.mp hget
      rw [hget] at hp
      obtain ⟨_, hchange⟩ := Flat.diff_eq_some.mp hp.symm
      have htarget : change = m'.entries.get? p := hchange
      cases change with
      | some entry => rw [placed_of_mem changes.entries.keys_nodup hmem, htarget]
      | none =>
          have hnone : ∀ entry, (p, some entry) ∉ changes.entries.toList := by
            intro entry hm
            have := SortedMap.get?_eq_some.mpr hm
            rw [hget] at this
            cases this
          rw [placed_of_not_mem hnone, if_pos (List.mem_map.mpr ⟨_, hmem, rfl⟩), htarget]

omit [LinearOrder Id] [Encoding Id] in
/-- Applying a snapshot to nothing gives it. -/
theorem placed_manifest (m : Manifest Id) (p : RepoPath) :
    placed (fun p => if p ∈ (m.entries.toList.map (fun e => (e.1, some e.2))).map Prod.fst then none else none)
      (m.entries.toList.map (fun e => (e.1, some e.2))) p = m.entries.get? p := by
  have hkeys : ((m.entries.toList.map (fun e => (e.1, some e.2))).map Prod.fst).Nodup := by
    rw [List.map_map]
    exact m.entries.keys_nodup
  cases hget : m.entries.get? p with
  | none =>
      refine (placed_of_not_mem (fun entry hm => ?_)).trans (ite_self _)
      obtain ⟨e, he, hp⟩ := List.mem_map.mp hm
      cases hp
      have := SortedMap.get?_eq_some.mpr he
      rw [hget] at this
      cases this
  | some entry =>
      exact placed_of_mem hkeys (List.mem_map.mpr ⟨_, SortedMap.get?_eq_some.mp hget, rfl⟩)

theorem holds_of_contains {r : Repository Id} {version : VersionNumber} {m : Manifest Id} {disk : Disk Str}
    (hm : r.manifestAt version = .ok m) (h : ∀ p, (hashed disk).file p = m.entries.get? p) :
    Holds r version disk := by
  unfold Holds
  rw [hm]
  refine congrArg Except.ok (Manifest.flat_injective (funext fun p => ?_))
  show m.entries.get? ⟨p⟩ = (hashed disk).scan.entries.get? ⟨p⟩
  rw [Disk.get?_scan, h]

end placing

/-! ### The record and the mode -/

section recording
variable {s : Site Id}

theorem command_writeRollingState {state : RollingState} (hg : Good s)
    (h : state.advancing = none → ∀ folder, s.store.rolling = some folder →
      Holds s.system.repository state.version folder.disk) :
    Command (writeRollingState state) (fun s' result => result = .ok () →
      s'.store = { s.store with record := some state }) s := by
  refine Process.keeps_bind (command_aside (fun s₁ result _ he₁ => ?_))
  cases result with
  | error e => exact fun h => by cases h
  | ok u =>
      refine Process.keeps_bind (command_call (fun s₂ e _ _ h => by cases h) (fun s₂ store hg₂ he₂ hstore => ?_))
      rw [← he₂.store] at hstore
      cases hstore
      have he := he₁.trans he₂
      rw [← he.store] at h ⊢
      refine ⟨⟨hg₂.sound, fun version folder hrecord hrolling => ?_, hg₂.clones⟩, ?_⟩
      · obtain rfl := Option.some.inj hrecord
        exact (h rfl folder hrolling).later hg.sound he
      · exact Process.Keeps.imp (command_aside (fun s₃ result _ he₃ => he₃.store)) (fun _ _ hstore _ => hstore)

/-- Neither the record nor what any directory holds differs. -/
structure Remoded (store store' : StoreDir) : Prop where
  record : store'.record = store.record
  folder : ∀ root, (store'.folder root).map Folder.disk = (store.folder root).map Folder.disk
  clones : store'.clones = store.clones

theorem Remoded.refl (store : StoreDir) : Remoded store store := ⟨rfl, fun _ => rfl, rfl⟩

theorem Good.remoded {store : StoreDir} (h : Good s) (hr : Remoded s.store store) :
    Good { s with store := store } where
  sound := h.sound
  rolling := by
    intro version folder hrecord hrolling
    have hfolder := hr.folder .rolling
    have hdisk : (s.store.rolling).map Folder.disk = some folder.disk := by
      rw [← show (store.folder .rolling).map Folder.disk = some folder.disk from congrArg _ hrolling]
      exact hfolder.symm
    obtain ⟨old, hold, hsame⟩ := Option.map_eq_some_iff.mp hdisk
    rw [← hsame]
    exact h.rolling version old (hr.record ▸ hrecord) hold
  clones := by
    intro c hc
    exact h.clones c (hr.clones ▸ hc)

theorem command_setMode {root : Root} {mode : ℕ} :
    Command (setMode root mode) (fun s' _ => Remoded s.store s'.store) s := by
  refine command_call (fun s' e _ he => he.store ▸ Remoded.refl _) (fun s' store hg he hf => ?_)
  split at hf
  · cases hf
  · rename_i folder hfolder
    cases hf
    have hr : Remoded s.store (s.store.setFolder (some { folder with mode := mode }) root) := by
      have hdisk : some folder.disk = (s.store.folder root).map Folder.disk := by rw [hfolder]; rfl
      cases root with
      | rolling => exact ⟨rfl, fun root => by cases root <;> [exact hdisk; rfl], rfl⟩
      | staging => exact ⟨rfl, fun root => by cases root <;> [rfl; exact hdisk], rfl⟩
    exact ⟨hg.remoded (he.store ▸ hr), hr⟩

/-- A command between two changes of the mode. -/
theorem command_unsealed {α : Type} {root : Root} {f : BaseM Id α} {post : Site Id → α → Prop}
    (h : Command (setMode root 0o700) (fun s₁ opened => opened = .ok () →
      Command f (fun s₂ result => ∀ a, result = .ok a →
        Command (setMode root 0o000) (fun s₃ sealed => sealed = .ok () → post s₃ a) s₂) s₁) s) :
    Command (unsealed root f) (fun s' result => ∀ a, result = .ok a → post s' a) s := by
  refine Process.keeps_bind (h.imp (fun s₁ opened hf => ?_))
  cases opened with
  | error e => exact fun _ h => by cases h
  | ok u =>
      refine Process.keeps_bind (Process.keeps_caught ((hf rfl).imp (fun s₂ result hseal => ?_)))
      cases result with
      | error e =>
          refine Process.keeps_bind (command_setMode.imp (fun s₃ sealed _ => ?_))
          cases sealed with
          | error e => exact fun _ h => by cases h
          | ok u => exact fun _ h => by cases h
      | ok a =>
          refine Process.keeps_bind ((hseal a rfl).imp (fun s₃ sealed hpost => ?_))
          cases sealed with
          | error e => exact fun _ h => by cases h
          | ok u =>
              intro a' h
              cases h
              exact hpost rfl

/-- Dropping the base is safe at any moment. -/
theorem command_trash (root : Root) : Command (trash root) (fun s' result => s'.store.clones = s.store.clones ∧
    s'.store.record = s.store.record ∧ (result = .ok () → s'.store.folder root = none)) s := by
  refine Process.keeps_bind (command_setMode.imp (fun s₁ result hr => ?_))
  cases result with
  | error e => exact ⟨hr.clones, hr.record, fun h => by cases h⟩
  | ok u =>
      refine Process.keeps_bind (command_call
        (fun s₂ e _ he => ⟨by rw [he.store]; exact hr.clones, by rw [he.store]; exact hr.record,
          fun h => by cases h⟩)
        (fun s₂ store hg₂ he₂ hstore => ?_))
      rw [← he₂.store] at hstore hr
      cases hstore
      refine ⟨⟨hg₂.sound, fun version folder hrecord hrolling => ?_, ?_⟩, ?_⟩
      · cases root with
        | rolling => cases hrolling
        | staging => exact hg₂.rolling version folder hrecord hrolling
      · cases root with
        | rolling => exact hg₂.clones
        | staging => exact hg₂.clones
      · refine Process.Keeps.imp (command_aside (fun s₃ result _ he₃ => he₃.store)) (fun s₃ result hsame => ?_)
        rw [hsame]
        cases root with
        | rolling => exact ⟨hr.clones, hr.record, fun _ => rfl⟩
        | staging => exact ⟨hr.clones, hr.record, fun _ => rfl⟩

theorem command_dropRolling : Command dropRolling (fun s' result => result = .ok () →
    s'.store.record = none ∧ s'.store.rolling = none) s := by
  have hclear : ∀ s₁ : Site Id, s₁.store.rolling = none → Command
      (call (fun store => .ok { store with record := none })) (fun s' result => result = .ok () →
        s'.store.record = none ∧ s'.store.rolling = none) s₁ := by
    intro s₁ hnone
    refine command_call (fun s₂ e _ _ h => by cases h) (fun s₂ store hg₂ he₂ hstore => ?_)
    rw [← he₂.store] at hstore hnone
    cases hstore
    exact ⟨⟨hg₂.sound, fun version folder hrecord _ => (by cases hrecord), hg₂.clones⟩, fun _ => ⟨rfl, hnone⟩⟩
  refine Process.keeps_bind (command_look (fun s₁ e _ _ h => by cases h) (fun s₁ hg₁ he₁ => ?_))
  cases hrolling : s.store.rolling with
  | none => exact hclear s₁ (by rw [he₁.store, hrolling])
  | some folder =>
      refine Process.keeps_bind ((command_trash .rolling).imp (fun s₂ result hpost => ?_))
      cases result with
      | error e => exact fun h => by cases h
      | ok u => exact hclear s₂ (hpost.2.2 rfl)

end recording

/-! ### Moving the base -/

section moving
variable {s : Site Id} {source target : VersionNumber}

/-- A snapshot stays readable while a command runs. -/
theorem Command.snapshot {α : Type} {p : BaseM Id α} {post : Site Id → Except (BaseError Id) α → Prop}
    {version : VersionNumber} {m : Manifest Id} (h : Command p post s) (hg : Good s)
    (hm : s.system.repository.manifestAt version = .ok m) :
    Command p (fun s' result => Good s' ∧ s'.system.repository.manifestAt version = .ok m ∧ post s' result) s := by
  have hb : True → (Before.at version).Answers s m.entries.get? := fun _ => ⟨m, hm, fun _ => rfl⟩
  refine (h.onward hg hb).imp (fun s' result hpost => ⟨hpost.1, ?_, hpost.2.2⟩)
  obtain ⟨m', hm', hsame⟩ := hpost.2.1 trivial
  rw [hm', Manifest.flat_injective (funext fun p => hsame ⟨p⟩)]

theorem command_differences : Command (differences source target) (fun s' result => s'.store = s.store ∧
    ∀ changes, result = .ok changes → ∃ m m', s'.system.repository.manifestAt source = .ok m ∧
      s'.system.repository.manifestAt target = .ok m' ∧ changes.flat = Flat.diff m.flat m'.flat) s := by
  refine command_query (fun s' e _ he => ⟨he.store, fun _ h => by cases h⟩)
    (fun s' a hg he ha => ⟨he.store, fun changes h => ?_⟩)
  cases h
  obtain ⟨old, hold, ha⟩ := except_bind_eq_ok.mp ha
  obtain ⟨new, hnew, ha⟩ := except_bind_eq_ok.mp ha
  obtain ⟨⟨changes, t'⟩, hdiff, ha⟩ := except_bind_eq_ok.mp ha
  cases ha
  obtain ⟨S, hs⟩ := hg.sound.repository
  exact ⟨S source, S target, diff_eq hs.chain hold hnew hdiff⟩

/-- Moves a directory of a writable root from one World to another. -/
theorem command_moving {root : Root} {disk : Folder} (hg : Good s) (hw : Writable root s.store)
    (hdisk : s.store.folder root = some disk) (hholds : Holds s.system.repository source disk.disk) :
    Command (do
      let changes ← differences source target
      let counts ← apply root (.at source) changes.entries.toList
      aside
      return counts) (fun s' result => Touched root s.store s'.store ∧ ∀ n, result = .ok n →
        ∃ folder, s'.store.folder root = some folder ∧ Holds s'.system.repository target folder.disk) s := by
  refine Process.keeps_bind ((command_differences.snapshot hg hholds).imp (fun s₁ result hpost => ?_))
  obtain ⟨hg₁, hm₁, hsame, hchanges⟩ := hpost
  have ht₁ : Touched root s.store s₁.store := hsame ▸ Touched.refl _
  cases result with
  | error e => exact ⟨ht₁, fun _ h => by cases h⟩
  | ok changes =>
      obtain ⟨m, m', hm, hm', hflat⟩ := hchanges changes rfl
      obtain rfl := Except.ok.inj (hm₁.symm.trans hm)
      have hne : True → ∀ c ∈ changes.entries.toList, c.1.names ≠ [] :=
        fun _ c hc => (changes.valid c.1 (List.mem_map.mpr ⟨c, hc, rfl⟩)).1
      have hb : True → (Before.at source).Answers s₁ (hashed disk.disk : Disk Id).scan.entries.get? :=
        fun _ => ⟨_, hm, fun _ => rfl⟩
      have hc : True → Contains root s₁.store (hashed disk.disk : Disk Id).scan.entries.get? :=
        fun _ => ⟨disk, hsame ▸ hdisk, fun p => (Disk.get?_scan _ p).symm⟩
      refine Process.keeps_bind (((command_apply hg₁ (hw.touched ht₁) hne hb hc).snapshot hg₁ hm').imp
        (fun s₂ result hpost => ?_))
      obtain ⟨hg₂, hm₂, ht₂, hc₂⟩ := hpost
      have ht₂ := ht₁.trans ht₂
      cases result with
      | error e => exact ⟨ht₂, fun _ h => by cases h⟩
      | ok counts =>
          refine Process.keeps_bind (command_aside (fun s₃ result hg₃ he₃ => ?_))
          cases result with
          | error e => exact ⟨he₃.store ▸ ht₂, fun _ h => by cases h⟩
          | ok u =>
              refine ⟨he₃.store ▸ ht₂, fun _ _ => ?_⟩
              obtain ⟨folder, hfolder, hfiles⟩ := hc₂ counts rfl trivial
              have hholds₂ : Holds s₂.system.repository target folder.disk :=
                holds_of_contains hm₂ (fun p => (hfiles p).trans (placed_diff hflat p))
              exact ⟨folder, he₃.store ▸ hfolder, hholds₂.later hg₂.sound he₃⟩

/-- An advance that goes through leaves the base at its target. -/
theorem command_advanceRolling (hg : Good s) {folder : Folder} (hrecord : s.store.record = some ⟨source, none⟩)
    (hrolling : s.store.rolling = some folder) :
    Command (advanceRolling source target) (fun s' result => ∀ n, result = .ok n →
      s'.store.record = some ⟨target, none⟩ ∧ s'.store.rolling.isSome) s := by
  have hholds := hg.rolling source folder hrecord hrolling
  refine Process.keeps_bind (((command_writeRollingState hg (fun h => by cases h)).snapshot hg hholds).imp
    (fun s₁ result hpost => ?_))
  obtain ⟨hg₁, hm₁, hstore₁⟩ := hpost
  cases result with
  | error e => exact fun _ h => by cases h
  | ok u =>
      have hstore₁ := hstore₁ rfl
      have hmoved : Command (unsealed .rolling (do
          let changes ← differences source target
          let counts ← apply .rolling (.at source) changes.entries.toList
          aside
          return counts)) (fun s' result => ∀ n, result = .ok n → (Good s' ∧ ∃ folder,
            s'.store.rolling = some folder ∧ Holds s'.system.repository target folder.disk)) s₁ := by
        refine command_unsealed ((command_setMode.snapshot hg₁ hm₁).imp (fun s₂ opened hpost _ => ?_))
        obtain ⟨hg₂, hm₂, hr₂⟩ := hpost
        have hw : Writable .rolling s₂.store := by
          refine .inr (fun version h => ?_)
          rw [hr₂.record, hstore₁] at h
          cases h
        have hdisk := hr₂.folder .rolling
        rw [hstore₁] at hdisk
        have hdisk : s₂.store.rolling.map Folder.disk = some folder.disk := by
          rw [show s₂.store.rolling.map Folder.disk = s.store.rolling.map Folder.disk from hdisk, hrolling]
          rfl
        obtain ⟨folder₂, hfolder₂, hsame₂⟩ := Option.map_eq_some_iff.mp hdisk
        have hholds₂ : Holds s₂.system.repository source folder₂.disk := by
          rw [hsame₂]
          exact hm₂
        refine ((command_moving hg₂ hw hfolder₂ hholds₂).good hg₂).imp (fun s₃ result hpost n h => ?_)
        obtain ⟨hg₃, _, hdone⟩ := hpost
        obtain ⟨folder₃, hfolder₃, hholds₃⟩ := hdone n h
        refine (command_setMode.snapshot hg₃ hholds₃).imp (fun s₄ sealed hpost _ => ?_)
        obtain ⟨hg₄, hm₄, hr₄⟩ := hpost
        have hdisk₄ : s₄.store.rolling.map Folder.disk = some folder₃.disk := by
          rw [show s₄.store.rolling.map Folder.disk = s₃.store.rolling.map Folder.disk from hr₄.folder .rolling,
            show s₃.store.rolling = some folder₃ from hfolder₃]
          rfl
        obtain ⟨folder₄, hfolder₄, hsame₄⟩ := Option.map_eq_some_iff.mp hdisk₄
        exact ⟨hg₄, folder₄, hfolder₄, by rw [hsame₄]; exact hm₄⟩
      refine Process.keeps_bind (Process.keeps_caught (hmoved.imp (fun s₂ result hdone => ?_)))
      cases result with
      | error e =>
          refine Process.keeps_bind (Process.keeps_caught (command_dropRolling.imp (fun s₃ result _ => ?_)))
          exact fun _ h => by cases h
      | ok counts =>
          obtain ⟨hg₂, folder₂, hfolder₂, hholds₂⟩ := hdone counts rfl
          refine Process.keeps_bind ((command_writeRollingState hg₂ (fun _ folder' hfolder' => ?_)).imp
            (fun s₃ result hpost => ?_))
          · obtain rfl := Option.some.inj (hfolder₂.symm.trans hfolder')
            exact hholds₂
          · cases result with
            | error e => exact fun _ h => by cases h
            | ok u =>
                intro n _
                rw [hpost rfl]
                exact ⟨rfl, by rw [hfolder₂]; rfl⟩

omit [LinearOrder Id] in
theorem contains_nothing {store : StoreDir} {mode : ℕ} (h : store.staging = some ⟨.nothing, mode⟩) :
    Contains .staging store (fun _ => (none : Option (FileEntry Id))) := by
  refine ⟨_, h, fun p => ?_⟩
  rw [file_hashed, Disk.file_eq_none_of_at? rfl]
  rfl

/-- The directory under construction becomes the base. -/
def placeRolling (store : StoreDir) : Except (BaseError Id) StoreDir :=
  match store.rolling with
  | none => .ok { store with rolling := store.staging, staging := none }
  | some _ => .error .io

/-- A directory that holds a version is put in place while no record stands. -/
theorem command_publishRolling {version : VersionNumber} {folder : Folder} (hg : Good s)
    (hrecord : s.store.record = none) (hstaging : s.store.staging = some folder)
    (hholds : Holds s.system.repository version folder.disk) :
    Command (publishRolling version) (fun s' result => result = .ok () →
      s'.store.record = some ⟨version, none⟩ ∧ s'.store.rolling.isSome) s := by
  have hplace : Command (call placeRolling) (fun s' result => result = .ok () →
      s'.store.record = none ∧ s'.store.rolling = some folder) s := by
    refine command_call (fun _ _ _ _ h => by cases h) (fun s₁ store hg₁ he₁ hstore => ?_)
    unfold placeRolling at hstore
    split at hstore
    · cases hstore
      rw [← he₁.store] at hrecord hstaging ⊢
      refine ⟨⟨hg₁.sound, fun version folder h _ => ?_, hg₁.clones⟩, fun _ => ⟨hrecord, hstaging⟩⟩
      rw [show s₁.store.record = some ⟨version, none⟩ from h] at hrecord
      cases hrecord
    · cases hstore
  refine Process.keeps_bind ((hplace.snapshot hg hholds).imp (fun s₁ result hpost => ?_))
  obtain ⟨hg₁, hm₁, hplaced⟩ := hpost
  cases result with
  | error e => exact fun h => by cases h
  | ok u =>
      obtain ⟨hrecord₁, hrolling₁⟩ := hplaced rfl
      refine Process.keeps_bind ((command_setMode.snapshot hg₁ hm₁).imp (fun s₂ result hpost => ?_))
      obtain ⟨hg₂, hm₂, hr₂⟩ := hpost
      cases result with
      | error e => exact fun h => by cases h
      | ok u =>
          have hdisk : s₂.store.rolling.map Folder.disk = some folder.disk := by
            rw [show s₂.store.rolling.map Folder.disk = s₁.store.rolling.map Folder.disk from hr₂.folder .rolling,
              hrolling₁]
            rfl
          obtain ⟨folder₂, hfolder₂, hsame₂⟩ := Option.map_eq_some_iff.mp hdisk
          refine Process.keeps_bind ((command_writeRollingState hg₂ (fun _ folder' hfolder' => ?_)).imp
            (fun s₃ result hpost => ?_))
          · obtain rfl := Option.some.inj (hfolder₂.symm.trans hfolder')
            show s₂.system.repository.manifestAt version = .ok (hashed folder₂.disk).scan
            rw [hsame₂]
            exact hm₂
          · cases result with
            | error e => exact fun h => by cases h
            | ok u =>
                refine command_aside (fun s₄ result _ he₄ _ => ?_)
                rw [he₄.store, hpost rfl]
                exact ⟨rfl, by rw [hfolder₂]; rfl⟩

theorem command_buildRolling {version : VersionNumber} (hrecord : s.store.record = none) :
    Command (buildRolling version) (fun s' result => ∀ n, result = .ok n →
      s'.store.record = some ⟨version, none⟩ ∧ s'.store.rolling.isSome) s := by
  refine Process.keeps_bind (command_query (fun _ _ _ _ _ h => by cases h) (fun s₁ m hg₁ he₁ hm => ?_))
  have hmake : Command (call (fun store => .ok { store with staging := some ⟨.nothing, 0o755⟩ }))
      (fun s' result => result = .ok () → s'.store = { s₁.store with staging := some ⟨.nothing, 0o755⟩ }) s₁ := by
    refine command_call (fun _ _ _ _ h => by cases h) (fun s₂ store hg₂ he₂ hstore => ?_)
    cases hstore
    have ht : Touched .staging s₂.store { s₁.store with staging := some ⟨.nothing, 0o755⟩ } :=
      ⟨some ⟨.nothing, 0o755⟩, by rw [he₂.store]; rfl⟩
    exact ⟨hg₂.touched (.inl rfl) ht, fun _ => rfl⟩
  refine Process.keeps_bind ((hmake.snapshot hg₁ hm).imp (fun s₂ result hpost => ?_))
  obtain ⟨hg₂, hm₂, hstore₂⟩ := hpost
  cases result with
  | error e => exact fun _ h => by cases h
  | ok u =>
      have hstore₂ := hstore₂ rfl
      have hrecord₂ : s₂.store.record = none := by rw [hstore₂, he₁.store, hrecord]
      have hne : True → ∀ c ∈ m.entries.toList.map (fun e => (e.1, some e.2)), c.1.names ≠ [] := by
        intro _ c hc
        obtain ⟨e, he, rfl⟩ := List.mem_map.mp hc
        exact (m.valid e.1 (List.mem_map.mpr ⟨e, he, rfl⟩)).1
      have hb : True → Before.nothing.Answers s₂ (fun _ => (none : Option (FileEntry Id))) := fun _ _ => rfl
      have hc : True → Contains .staging s₂.store (fun _ => (none : Option (FileEntry Id))) :=
        fun _ => contains_nothing (by rw [hstore₂])
      refine Process.keeps_bind (((command_apply hg₂ (.inl rfl) hne hb hc).snapshot hg₂ hm₂).imp
        (fun s₃ result hpost => ?_))
      obtain ⟨hg₃, hm₃, ht₃, hc₃⟩ := hpost
      cases result with
      | error e => exact fun _ h => by cases h
      | ok counts =>
          obtain ⟨folder, hfolder, hfiles⟩ := hc₃ counts rfl trivial
          have hholds : Holds s₃.system.repository version folder.disk :=
            holds_of_contains hm₃ (fun p => (hfiles p).trans (placed_manifest m p))
          have hrecord₃ : s₃.store.record = none := ht₃.record.trans hrecord₂
          refine Process.keeps_bind (command_aside (fun s₄ result hg₄ he₄ => ?_))
          cases result with
          | error e => exact fun _ h => by cases h
          | ok u =>
              have hfolder₄ : s₄.store.staging = some folder := by
                rw [he₄.store]
                exact hfolder
              refine Process.keeps_bind ((command_publishRolling hg₄ (by rw [he₄.store, hrecord₃]) hfolder₄
                (hholds.later hg₃.sound he₄)).imp (fun s₅ result hpost => ?_))
              cases result with
              | error e => exact fun _ h => by cases h
              | ok u => exact fun n _ => hpost rfl

theorem command_abandon : Command abandon (fun _ _ => True) s := by
  refine Process.keeps_bind (Process.keeps_caught (command_look (fun _ _ _ _ => trivial)
    (fun s₁ _ _ => ?_)))
  dsimp only
  split
  · exact Process.keeps_bind (Process.keeps_caught ((command_trash .staging).imp (fun _ _ _ => trivial)))
  · trivial

theorem command_materializeRolling {version : VersionNumber} (hg : Good s) :
    Command (materializeRolling version) (fun s' result => ∀ n, result = .ok n →
      s'.store.record = some ⟨version, none⟩ ∧ s'.store.rolling.isSome) s := by
  refine Process.keeps_bind ((command_dropRolling.good hg).imp (fun s₁ result hpost => ?_))
  obtain ⟨hg₁, hdropped⟩ := hpost
  cases result with
  | error e => exact fun _ h => by cases h
  | ok u =>
      refine Process.keeps_bind (Process.keeps_caught ((command_buildRolling (hdropped rfl).1).imp
        (fun s₂ result hpost => ?_)))
      cases result with
      | error e =>
          refine Process.keeps_bind (command_abandon.imp (fun s₃ result _ => ?_))
          cases result with
          | error e => exact fun _ h => by cases h
          | ok u => exact fun _ h => by cases h
      | ok counts => exact fun n _ => hpost counts rfl

theorem command_heldVersion : Command heldVersion (fun s' result => s'.store = s.store ∧
    ∀ held, result = .ok (some held) → s.store.record = some ⟨held, none⟩ ∧ s.store.rolling.isSome) s := by
  refine Process.keeps_bind (command_look (fun s₁ e _ he => ⟨he.store, fun _ h => by cases h⟩) (fun s₁ _ he₁ => ?_))
  dsimp only
  split
  · rename_i held hrecord
    refine Process.keeps_bind (command_look (fun s₂ e _ he₂ => ⟨he₂.store.trans he₁.store, fun _ h => by cases h⟩)
      (fun s₂ _ he₂ => ?_))
    have hstore := he₂.store.trans he₁.store
    rw [he₁.store]
    dsimp only
    split
    · rename_i hthere
      split
      · exact ⟨hstore, fun _ h => by cases h⟩
      · refine ⟨hstore, fun held' h => ?_⟩
        cases h
        exact ⟨hrecord, hthere⟩
    · exact ⟨hstore, fun _ h => by cases h⟩
  · exact ⟨he₁.store, fun _ h => by cases h⟩

/-- What `ensureRolling` answers is what the base holds. -/
theorem command_ensureRolling {version : VersionNumber} (hg : Good s) :
    Command (ensureRolling version) (fun s' result => ∀ held report, result = .ok (held, report) →
      version ≤ held ∧ s'.store.record = some ⟨held, none⟩ ∧ s'.store.rolling.isSome) s := by
  refine Process.keeps_bind ((command_heldVersion.good hg).imp (fun s₁ result hpost => ?_))
  obtain ⟨hg₁, hsame, hheld⟩ := hpost
  cases result with
  | error e => exact fun _ _ h => by cases h
  | ok answer =>
      cases answer with
      | none =>
          refine Process.keeps_bind ((command_materializeRolling hg₁).imp (fun s₂ result hpost => ?_))
          cases result with
          | error e => exact fun _ _ h => by cases h
          | ok counts =>
              intro held report h
              cases h
              exact ⟨le_refl _, hpost counts rfl⟩
      | some held =>
          obtain ⟨hrecord, hthere⟩ := hheld held rfl
          rw [← hsame] at hrecord hthere
          dsimp only
          split
          · rename_i hle
            intro held' report h
            cases h
            exact ⟨hle, hrecord, hthere⟩
          · obtain ⟨folder, hfolder⟩ := Option.isSome_iff_exists.mp hthere
            refine Process.keeps_bind ((command_advanceRolling hg₁ hrecord hfolder).imp (fun s₂ result hpost => ?_))
            cases result with
            | error e => exact fun _ _ h => by cases h
            | ok counts =>
                intro held' report h
                cases h
                exact ⟨le_refl _, hpost counts rfl⟩

end moving

/-! ### Commands -/

section commands
variable {s : Site Id} {α β : Type}

/-- A command that keeps the invariant wherever it starts. -/
def Safe (p : BaseM Id α) : Prop := ∀ s, Good s → Command p (fun _ _ => True) s

theorem safe_done (result : Except (BaseError Id) α) : Safe (.done result) := fun _ _ => trivial

theorem Safe.bind {p : BaseM Id α} {f : α → BaseM Id β} (hp : Safe p) (hf : ∀ a, Safe (f a)) : Safe (p >>= f) := by
  intro s hg
  refine Process.keeps_bind (((hp s hg).good hg).imp (fun s₁ result hpost => ?_))
  cases result with
  | error e => trivial
  | ok a => exact hf a s₁ hpost.1

theorem safe_aside : Safe (aside : BaseM Id Unit) := fun _ _ => command_aside (fun _ _ _ _ => trivial)

theorem safe_look (f : StoreDir → α) : Safe (look f : BaseM Id α) :=
  fun _ _ => command_look (fun _ _ _ _ => trivial) (fun _ _ _ => trivial)

theorem safe_query (f : Repository Id → Except (Error Id) α) : Safe (query f) :=
  fun _ _ => command_query (fun _ _ _ _ => trivial) (fun _ _ _ _ _ => trivial)

theorem safe_setMode (root : Root) (mode : ℕ) : Safe (setMode root mode : BaseM Id Unit) :=
  fun _ _ => command_setMode.imp (fun _ _ _ => trivial)

/-- A call that leaves the record, the base and the clones alone. -/
theorem safe_apart {f : StoreDir → StoreDir} (hrecord : ∀ store, (f store).record = store.record)
    (hrolling : ∀ store, (f store).rolling = store.rolling) (hclones : ∀ store, (f store).clones = store.clones) :
    Safe (call (fun store => .ok (f store)) : BaseM Id Unit) := by
  refine fun s _ => command_call (fun _ _ _ _ => trivial) (fun s₁ store hg₁ he₁ hstore => ⟨?_, trivial⟩)
  cases hstore
  rw [← he₁.store]
  refine ⟨hg₁.sound, fun version folder hr hf => ?_, fun c hc => ?_⟩
  · rw [hrecord] at hr
    rw [hrolling] at hf
    exact hg₁.rolling version folder hr hf
  · rw [hclones] at hc
    exact hg₁.clones c hc

theorem safe_dropRolling : Safe (dropRolling : BaseM Id Unit) :=
  fun _ _ => command_dropRolling.imp (fun _ _ _ => trivial)

theorem safe_abandon : Safe (abandon : BaseM Id Unit) := fun _ _ => command_abandon

theorem safe_recover : Safe (recover : BaseM Id Unit) := by
  have hpartial : Safe (dropPartial : BaseM Id Unit) := by
    refine Safe.bind (safe_look _) (fun state => ?_)
    split
    · exact safe_dropRolling
    · exact safe_done _
  refine Safe.bind (safe_query _) (fun terminal => ?_)
  refine Safe.bind (safe_apart (f := fun store => { store with staging := none })
    (fun _ => rfl) (fun _ => rfl) (fun _ => rfl)) (fun _ => ?_)
  refine Safe.bind (safe_apart (f := fun store =>
    { store with layers := fun layer => if terminal layer then none else store.layers layer })
    (fun _ => rfl) (fun _ => rfl) (fun _ => rfl)) (fun _ => ?_)
  refine Safe.bind hpartial (fun _ => Safe.bind (safe_look _) (fun there => ?_))
  dsimp only
  split
  · exact Safe.bind (safe_setMode _ _) (fun _ => safe_aside)
  · exact safe_aside

theorem safe_staging (before : Before) (changes : List (Write Id)) : Safe (apply .staging before changes) :=
  fun s hg => (command_apply hg (.inl rfl) False.elim False.elim
    (show False → Contains .staging s.store (fun _ => none) from False.elim)).imp (fun _ _ _ => trivial)

theorem safe_rewind (held version : VersionNumber) (base : BaseReport) :
    Safe (rewind held version base : BaseM Id BaseReport) := by
  unfold rewind
  split
  · exact Safe.bind (safe_query _) (fun changes => Safe.bind (safe_staging _ _) (fun counts => safe_done _))
  · exact safe_done _

theorem safe_applyCheckpoint (checkpoint : LayerCheckpoint Id) : Safe (applyCheckpoint checkpoint) := by
  unfold applyCheckpoint
  split
  · exact safe_done _
  · exact Safe.bind (safe_staging _ _) (fun counts => safe_done _)

/-- A clone is taken of a base that holds the version it is taken for. -/
theorem command_cloneTree {held : VersionNumber} (hrecord : s.store.record = some ⟨held, none⟩) :
    Command (cloneTree held) (fun _ _ => True) s := by
  refine command_call (fun _ _ _ _ => trivial) (fun s₁ store hg₁ he₁ hstore => ⟨?_, trivial⟩)
  rw [← he₁.store] at hstore hrecord
  split at hstore
  · cases hstore
  · rename_i folder hfolder
    cases hstore
    refine ⟨hg₁.sound, hg₁.rolling, fun c hc => ?_⟩
    cases List.mem_cons.mp hc with
    | inl he =>
        rw [he]
        exact hg₁.rolling held folder hrecord hfolder
    | inr hc => exact hg₁.clones c hc

theorem command_buildLayer {layer : LayerId} {checkpoint : LayerCheckpoint Id} {held : VersionNumber}
    {base : BaseReport} (hg : Good s) (hrecord : s.store.record = some ⟨held, none⟩) :
    Command (buildLayer layer checkpoint held base) (fun _ _ => True) s := by
  have hclone : Command (unsealed .rolling (cloneTree held)) (fun _ result => ∀ a, result = .ok a → True) s := by
    refine command_unsealed (command_setMode.imp (fun s₁ opened hr _ => ?_))
    exact (command_cloneTree (hr.record.trans hrecord)).imp
      (fun s₂ _ _ _ _ => command_setMode.imp (fun _ _ _ _ => trivial))
  refine Process.keeps_bind ((hclone.good hg).imp (fun s₁ result hpost => ?_))
  cases result with
  | error e => trivial
  | ok u =>
      refine Safe.bind (safe_setMode _ _) (fun _ => Safe.bind (safe_rewind _ _ _) (fun base => ?_)) s₁ hpost.1
      refine Safe.bind (safe_applyCheckpoint checkpoint) (fun applied => Safe.bind safe_aside (fun _ => ?_))
      refine Safe.bind (safe_apart (f := fun store => { store with
        layers := Function.update store.layers layer store.staging
        staging := none }) (fun _ => rfl) (fun _ => rfl) (fun _ => rfl)) (fun _ => ?_)
      exact Safe.bind safe_aside (fun _ => Safe.bind safe_aside (fun _ => safe_done _))

theorem safe_openWorkspace (layer : LayerId) : Safe (openWorkspace layer : BaseM Id WorkspaceReport) := by
  refine Safe.bind safe_recover (fun _ => Safe.bind (safe_query _) (fun state => ?_))
  cases state with
  | published _ operation _ => exact safe_done _
  | discarded _ _ _ => exact safe_done _
  | active head =>
      refine Safe.bind (safe_look _) (fun there => ?_)
      dsimp only
      split
      · exact safe_done _
      · refine Safe.bind (safe_query _) (fun checkpoint => fun s hg => ?_)
        refine Process.keeps_bind (((command_ensureRolling hg).good hg).imp (fun s₁ result hpost => ?_))
        obtain ⟨hg₁, hheld⟩ := hpost
        cases result with
        | error e => trivial
        | ok answer =>
            obtain ⟨held, base⟩ := answer
            have hrecord := (hheld held base rfl).2.1
            refine Process.keeps_bind (Process.keeps_caught (((command_buildLayer hg₁ hrecord).good hg₁).imp
              (fun s₂ result hpost => ?_)))
            cases result with
            | error e => exact Safe.bind safe_abandon (fun _ => safe_done _) s₂ hpost.1
            | ok built => trivial

theorem safe_reclaimPublished (layer : LayerId) : Safe (reclaimPublished layer : BaseM Id Unit) := by
  refine Safe.bind (safe_look _) (fun there => ?_)
  dsimp only
  split
  · refine Safe.bind safe_aside (fun _ => ?_)
    refine Safe.bind (safe_apart (f := fun store =>
      { store with layers := Function.update store.layers layer none })
      (fun _ => rfl) (fun _ => rfl) (fun _ => rfl)) (fun _ => ?_)
    exact Safe.bind safe_aside (fun _ => safe_recover)
  · exact safe_recover

theorem safe_ensureRolling (version : VersionNumber) :
    Safe (ensureRolling version : BaseM Id (VersionNumber × BaseReport)) :=
  fun _ hg => (command_ensureRolling hg).imp (fun _ _ _ => trivial)

theorem safe_warmBase : Safe (warmBase : BaseM Id BaseReport) :=
  Safe.bind (safe_query _) (fun _ => Safe.bind (safe_ensureRolling _) (fun _ => safe_done _))

end commands

/-! ### Runs -/

/-- The record says that the base holds the version. -/
def Recorded (version : VersionNumber) (s : Site Id) : Prop :=
  s.store.record = some ⟨version, none⟩ ∧ s.store.rolling.isSome

/-- A command may be stopped anywhere.  Nothing advances a base from a version that the record does not
name. -/
inductive Step : Site Id → Site Id → Prop
  | elsewhere {s s'} : Elsewhere s s' → Step s s'
  | openWorkspace {s s'} (layer) : (openWorkspace layer).Reaches Elsewhere s s' → Step s s'
  | reclaimPublished {s s'} (layer) : (reclaimPublished layer).Reaches Elsewhere s s' → Step s s'
  | recoverWorkspaces {s s'} : recoverWorkspaces.Reaches Elsewhere s s' → Step s s'
  | warmBase {s s'} : warmBase.Reaches Elsewhere s s' → Step s s'
  | ensureRolling {s s'} (version) : (ensureRolling version).Reaches Elsewhere s s' → Step s s'
  | materializeRolling {s s'} (version) : (materializeRolling version).Reaches Elsewhere s s' → Step s s'
  | advanceRolling {s s'} (source target) : Recorded source s →
      (advanceRolling source target).Reaches Elsewhere s s' → Step s s'
  | dropRolling {s s'} : dropRolling.Reaches Elsewhere s s' → Step s s'

abbrev Run (s s' : Site Id) : Prop := Relation.ReflTransGen Step s s'

section runs
variable {s s' : Site Id} {α : Type}

/-- A store directory without a base, beside any repository. -/
structure Unused (s : Site Id) : Prop where
  reachable : System.Reachable s.system
  record : s.store.record = none
  rolling : s.store.rolling = none
  clones : s.store.clones = []

theorem Unused.good (h : Unused s) : Good s where
  sound := h.reachable.sound
  rolling := by
    intro version folder hrecord
    rw [h.record] at hrecord
    cases hrecord
  clones := by
    intro c hc
    rw [h.clones] at hc
    cases hc

theorem Command.reaches {p : BaseM Id α} {post : Site Id → Except (BaseError Id) α → Prop} (h : Command p post s)
    (hg : Good s) (hr : p.Reaches Elsewhere s s') : Good s' :=
  Process.Keeps.reaches h hg (fun _ _ hg he => hg.elsewhere he) (fun _ _ hg hw => hw.2 hg) hr

theorem Safe.reaches {p : BaseM Id α} (h : Safe p) (hg : Good s) (hr : p.Reaches Elsewhere s s') : Good s' :=
  (h s hg).reaches hg hr

theorem Step.good (h : Step s s') (hg : Good s) : Good s' := by
  cases h with
  | elsewhere he => exact hg.elsewhere he
  | openWorkspace layer hr => exact (safe_openWorkspace layer).reaches hg hr
  | reclaimPublished layer hr => exact (safe_reclaimPublished layer).reaches hg hr
  | recoverWorkspaces hr => exact safe_recover.reaches hg hr
  | warmBase hr => exact safe_warmBase.reaches hg hr
  | ensureRolling version hr => exact (safe_ensureRolling version).reaches hg hr
  | materializeRolling version hr => exact (command_materializeRolling hg).reaches hg hr
  | advanceRolling source target hrecorded hr =>
      obtain ⟨folder, hfolder⟩ := Option.isSome_iff_exists.mp hrecorded.2
      exact (command_advanceRolling hg hrecorded.1 hfolder).reaches hg hr
  | dropRolling hr => exact safe_dropRolling.reaches hg hr

theorem Run.good (h : Run s s') (hg : Good s) : Good s' := by
  induction h with
  | refl => exact hg
  | tail _ hstep ih => exact hstep.good ih

/-- A base that `ensureRolling` answers with holds the version that it answers. -/
theorem Good.ensured {version held : VersionNumber} {report : BaseReport} {own : List (Site Id × Site Id)}
    (hg : Good s) (he : (ensureRolling version).Ends Elsewhere s own (.ok (held, report)) s') :
    version ≤ held ∧ ∃ folder, s'.store.rolling = some folder ∧ Holds s'.system.repository held folder.disk := by
  obtain ⟨s₁, hg₁, hpost, he₁⟩ := Process.Keeps.ends (command_ensureRolling hg) hg
    (fun _ _ hg he => hg.elsewhere he) (fun _ _ hg hw => hw.2 hg) he
  obtain ⟨hle, hrecord, hthere⟩ := hpost held report rfl
  obtain ⟨folder, hfolder⟩ := Option.isSome_iff_exists.mp hthere
  rw [← he₁.store] at hrecord hfolder
  exact ⟨hle, folder, hfolder, (hg₁.elsewhere he₁).rolling held folder hrecord hfolder⟩

/-- Wherever commands fail or are stopped: a base that is recorded with no advance in progress holds the
version of its record, and so does every base that a command answers with or clones. -/
theorem Run.base_holds (h : Run s s') (hs : Unused s) :
    (∀ version folder, s'.store.record = some ⟨version, none⟩ → s'.store.rolling = some folder →
      Holds s'.system.repository version folder.disk) ∧
    (∀ version held report own s'', (ensureRolling version).Ends Elsewhere s' own (.ok (held, report)) s'' →
      version ≤ held ∧
        ∃ folder, s''.store.rolling = some folder ∧ Holds s''.system.repository held folder.disk) ∧
    ∀ c ∈ s'.store.clones, Holds s'.system.repository c.1 c.2 := by
  have hg := h.good hs.good
  exact ⟨hg.rolling, fun _ _ _ _ _ he => hg.ensured he, hg.clones⟩

omit [LinearOrder Id] [Encoding Id] in
theorem alone_query {f : Repository Id → Except (Error Id) α} {a : α} (hs : s.fault = false)
    (h : f s.system.repository = .ok a) : (query f : BaseM Id α).alone s = (.ok a, s) := by
  unfold query
  rw [Process.alone_read, hs, h]
  rfl

end runs

/-- A new repository beside an empty store directory. -/
def newSite : Site ℕ := ⟨.initial 0, ⟨none, none, none, fun _ => none, []⟩, false⟩

/-- `newSite` with its base. -/
def builtSite : Site ℕ :=
  { newSite with store := { newSite.store with record := some ⟨0, none⟩, rolling := some ⟨.nothing, 0o000⟩ } }

theorem manifestAt_newSite : newSite.system.repository.manifestAt 0 = .ok Manifest.empty := by
  obtain ⟨S, hs⟩ := (System.initial_sound 0).repository
  rw [← hs.chain.genesis]
  exact hs.chain.manifestAt_eq hs.chain.first

theorem alone_materializeRolling : (materializeRolling 0).alone newSite = (.ok (0, 0), builtSite) := by
  have hdrop : (dropRolling : BaseM ℕ Unit).alone newSite = (.ok (), newSite) := rfl
  have hbuild : (buildRolling 0).alone newSite = (.ok (0, 0), builtSite) := by
    have hquery : (query (fun r => r.manifestAt 0)).alone newSite = (.ok Manifest.empty, newSite) :=
      alone_query rfl manifestAt_newSite
    unfold buildRolling
    rw [Process.alone_bind_of_ok hquery]
    rfl
  unfold materializeRolling
  rw [Process.alone_bind_of_ok hdrop, Process.alone_bind, Process.alone_caught, hbuild]
  rfl

/-- The base of `builtSite` was built by a run, and is the empty World. -/
theorem base_holds_builtSite : Holds builtSite.system.repository 0 (.nothing : Disk Str) := by
  have hrun : Run newSite builtSite := by
    refine .single (.materializeRolling 0 ?_)
    have hreaches := Process.reaches_alone Elsewhere.refl (materializeRolling 0) newSite
    rw [alone_materializeRolling] at hreaches
    exact hreaches
  exact (hrun.base_holds ⟨⟨0, .refl⟩, rfl, rfl, rfl⟩).1 0 _ rfl rfl

end RollingBase

end Javelin
