import Javelin.ExactDisks
import Javelin.RollingBaseRuns

/-! # Applying changes exactly

Removing a file with the parents that it leaves empty keeps a directory exact (`Disk.Exact`).  So after all changed
files are removed, a directory of the old snapshot stands if and only if it is not among those removed
(`alone_removeAll`), and the loop that writes creates the directories that are missing and no others
(`alone_makeParents`, `alone_writeAll`).

`apply_incremental`: applied to a directory that is exact for one snapshot, the changes to another one succeed, in
any order of their paths, and leave a directory that is exact for the other, as a fresh materialization does. -/

namespace Javelin

open KeyedList

theorem Disk.create_spec {Id : Type} {d : Disk Id} (found : Found Id) {p : RepoPath} (hnone : d.at? p = none)
    (hvalid : p.Valid) (hdirs : ∀ a ∈ p.ancestors, d.at? a = some .dir) :
    ∃ d', d.create p found = .ok d' ∧ ∀ q, d'.at? q = if p = q then some found else d.at? q := by
  unfold create
  rw [dif_pos hnone, dif_pos ⟨hvalid, hdirs⟩]
  exact ⟨_, rfl, fun q => SortedMap.get?_insert _ _ _ _⟩

namespace RollingBase

variable {Id : Type} [LinearOrder Id] [Encoding Id]

/-! ### Calls on one directory, alone -/

section alone
variable {s : Site Id} {root : Root} {folder : Folder} {d d' : Disk Str}

/-- The site with this directory at the root. -/
def within (s : Site Id) (root : Root) (folder : Folder) (d : Disk Str) : Site Id :=
  { s with store := s.store.setFolder (some { folder with disk := d }) root }

omit [LinearOrder Id] [Encoding Id] in
theorem within_folder (h : s.store.folder root = some folder) : within s root folder folder.disk = s := by
  unfold within
  cases root
  · show { s with store := { s.store with rolling := some folder } } = s
    rw [← show s.store.rolling = some folder from h]
  · show { s with store := { s.store with staging := some folder } } = s
    rw [← show s.store.staging = some folder from h]

omit [LinearOrder Id] [Encoding Id] in
theorem alone_call (hs : s.fault = false) {f : StoreDir → Except (BaseError Id) StoreDir} {store : StoreDir}
    (h : f s.store = .ok store) : (call f).alone s = (.ok (), { s with store := store }) := by
  have hstep : (if s.fault then throw .io else do
      let store ← f s.store
      return ((), { s with store := store }) : Except (BaseError Id) (Unit × Site Id)) =
        .ok ((), { s with store := store }) := by
    rw [hs, h]
    rfl
  unfold call
  rw [Process.alone_transact]
  unfold Process.written
  dsimp only
  rw [hstep]
  rfl

omit [LinearOrder Id] [Encoding Id] in
theorem alone_call_error (hs : s.fault = false) {f : StoreDir → Except (BaseError Id) StoreDir} {e : BaseError Id}
    (h : f s.store = .error e) : (call f).alone s = (.error e, s) := by
  have hstep : (if s.fault then throw .io else do
      let store ← f s.store
      return ((), { s with store := store }) : Except (BaseError Id) (Unit × Site Id)) = .error e := by
    rw [hs, h]
    rfl
  unfold call
  rw [Process.alone_transact]
  unfold Process.written
  dsimp only
  rw [hstep]
  rfl

omit [LinearOrder Id] [Encoding Id] in
theorem alone_onDisk (hs : s.fault = false) {f : Disk Str → Except (BaseError Id) (Disk Str)} (h : f d = .ok d') :
    (onDisk root f).alone (within s root folder d) = (.ok (), within s root folder d') := by
  have hset : (within s root folder d).store.setFolder (some { folder with disk := d' }) root =
      (within s root folder d').store := by cases root <;> rfl
  unfold onDisk
  have hfault : (within s root folder d).fault = false := hs
  refine Eq.trans (b := (.ok (), { within s root folder d with store := (within s root folder d').store })) ?_ rfl
  refine alone_call hfault ?_
  rw [show (within s root folder d).store.folder root = _ from folder_setFolder _ _ _]
  dsimp only
  rw [h]
  exact congrArg Except.ok hset

omit [LinearOrder Id] [Encoding Id] in
theorem alone_onDisk_error (hs : s.fault = false) {f : Disk Str → Except (BaseError Id) (Disk Str)}
    {e : BaseError Id} (h : f d = .error e) :
    (onDisk root f).alone (within s root folder d) = (.error e, within s root folder d) := by
  unfold onDisk
  have hfault : (within s root folder d).fault = false := hs
  refine alone_call_error hfault ?_
  rw [show (within s root folder d).store.folder root = _ from folder_setFolder _ _ _]
  dsimp only
  rw [h]
  rfl

end alone

/-! ### Removing -/

section removing
variable {s : Site Id} {root : Root} {folder : Folder}

omit [LinearOrder Id] [Encoding Id] in
/-- The directories that are reported removed are those that are gone. -/
theorem alone_removeParents (hs : s.fault = false) (dirs : List RepoPath) (d : Disk Str) (removed : List RepoPath) :
    ∃ removed', (removeParents root dirs removed : BaseM Id _).alone (within s root folder d) =
        (.ok removed', within s root folder (Disk.removeEmptied dirs d)) ∧
      ∀ a, a ∈ removed' ↔ a ∈ removed ∨ (d.at? a = some .dir ∧ (Disk.removeEmptied dirs d).at? a = none) := by
  induction dirs generalizing d removed with
  | nil =>
      refine ⟨removed, rfl, fun a => ?_⟩
      constructor
      · exact Or.inl
      · rintro (h | ⟨hdir, hnone⟩)
        · exact h
        · rw [show (Disk.removeEmptied [] d).at? a = d.at? a from rfl, hdir] at hnone
          cases hnone
  | cons dir dirs ih =>
      cases hr : d.rmdir dir with
      | none =>
          have hstay : Disk.removeEmptied (dir :: dirs) d = d := by rw [Disk.removeEmptied, hr]
          have hcall : (onDisk root (fun disk => refusable (disk.rmdir dir)) : BaseM Id Unit).alone
              (within s root folder d) = (.error .io, within s root folder d) :=
            alone_onDisk_error hs (by rw [hr]; rfl)
          refine ⟨removed, ?_, fun a => ?_⟩
          · unfold removeParents
            rw [Process.alone_bind, Process.alone_caught, hcall, hstay]
            rfl
          · rw [hstay]
            constructor
            · exact Or.inl
            · rintro (h | ⟨hdir, hnone⟩)
              · exact h
              · rw [hdir] at hnone
                cases hnone
      | some d' =>
          have hgo : Disk.removeEmptied (dir :: dirs) d = Disk.removeEmptied dirs d' := by
            rw [Disk.removeEmptied, hr]
          have hcall : (onDisk root (fun disk => refusable (disk.rmdir dir)) : BaseM Id Unit).alone
              (within s root folder d) = (.ok (), within s root folder d') :=
            alone_onDisk hs (by rw [hr]; rfl)
          obtain ⟨removed', halone, hmem⟩ := ih d' (dir :: removed)
          refine ⟨removed', ?_, fun a => ?_⟩
          · unfold removeParents
            rw [Process.alone_bind, Process.alone_caught, hcall, hgo]
            exact halone
          · rw [hmem, hgo, List.mem_cons]
            have hat := (Disk.rmdir_eq_some hr).2 a
            by_cases ha : dir = a
            · subst ha
              rw [if_pos rfl] at hat
              have hgone : (Disk.removeEmptied dirs d').at? dir = none :=
                (Disk.at?_removeEmptied_or dirs d' dir).elim (fun h => h.trans hat) id
              simp [Disk.dir_of_rmdir hr, hgone]
            · rw [if_neg ha] at hat
              rw [hat]
              simp [Ne.symm ha]

end removing

/-! ### Questions to the old snapshot -/

section questions
variable {s : Site Id} {root : Root} {before : Before} {files : RepoPath → Option (FileEntry Id)}

theorem answers_index {r : Repository Id} {S : VersionNumber → Manifest Id} (h : Repository.Chain r S)
    {version : VersionNumber} {m : Manifest Id} (hm : r.manifestAt version = .ok m) :
    r.index.Answers (fun _ => False) version m.flat (fun e => r.objects.validateEntry e = .ok ())
      (r.objects.trees .verify) := by
  obtain ⟨⟨v, hv⟩, rfl⟩ := version_of_manifestAt h hm
  exact WorldIndex.answers_over (Trees.Coherent.new _) (h.treeIn_eq_ok.mpr ⟨v, hv, rfl⟩)
    (Objects.isTree_trees.mpr (h.tree version v hv)) (Trees.validBelow_flat (S version))

/-- The old snapshot is asked of a sound repository. -/
theorem alone_file (hsound : s.system.Sound) (hs : s.fault = false) (hb : before.Answers s files) {path : RepoPath}
    (hne : path.names ≠ []) : (before.file path).alone s = (.ok (files path).isSome, s) := by
  cases before with
  | nothing =>
      rw [hb path]
      rfl
  | «at» version =>
      obtain ⟨m, hm, hfiles⟩ := hb
      obtain ⟨S, hrepo⟩ := hsound.repository
      have hindex := answers_index hrepo.chain hm
      obtain ⟨t', hentry, _⟩ := (hindex.entryAt _ (Trees.Step.refl hindex.coherent) path hne).exists_ok
      unfold Before.file
      refine alone_query hs ?_
      rw [except_bind_of_ok hentry, hfiles]
      rfl

/-- A directory of the old snapshot leads to one of its files. -/
theorem alone_dir (hsound : s.system.Sound) (hs : s.fault = false) (hb : before.Answers s files) {path : RepoPath}
    (hne : path.names ≠ []) : ∃ b, (before.dir path : BaseM Id Bool).alone s = (.ok b, s) ∧
      (b = true ↔ ∃ q, files q ≠ none ∧ path ∈ q.ancestors) := by
  cases before with
  | nothing =>
      refine ⟨false, rfl, iff_of_false Bool.false_ne_true ?_⟩
      rintro ⟨q, hq, _⟩
      exact hq (hb q)
  | «at» version =>
      obtain ⟨m, hm, hfiles⟩ := hb
      obtain ⟨S, hrepo⟩ := hsound.repository
      have hindex := answers_index hrepo.chain hm
      obtain ⟨b, t', hdir, _, hbelow⟩ := (hindex.isDir _ (Trees.Step.refl hindex.coherent) path hne).exists_ok
      refine ⟨b, ?_, hbelow.trans ?_⟩
      · unfold Before.dir
        refine alone_query hs ?_
        rw [except_bind_of_ok hdir]
        rfl
      · constructor
        · rintro ⟨rest, hrest, hset⟩
          refine ⟨⟨path.names ++ rest⟩, ?_, RepoPath.mem_ancestors.mpr ⟨hne, rest, hrest, rfl⟩⟩
          rw [hfiles]
          exact hset
        · rintro ⟨q, hq, ha⟩
          obtain ⟨_, rest, hrest, heq⟩ := RepoPath.mem_ancestors.mp ha
          refine ⟨rest, hrest, ?_⟩
          rw [← heq]
          rw [hfiles] at hq
          exact hq

end questions

/-! ### Exact directories by their IDs -/

section hashing
variable {d d' : Disk Str} {files : RepoPath → Option (FileEntry Id)}

omit [LinearOrder Id] in
theorem at?_hashed (d : Disk Str) (p : RepoPath) : (hashed d : Disk Id).at? p =
    (d.at? p).map (Found.map (fun bytes => objectId (.blob bytes : Object Id))) := get?_mapValues _ _ _

omit [LinearOrder Id] in
theorem dir_hashed {a : RepoPath} : (hashed d : Disk Id).at? a = some .dir ↔ d.at? a = some .dir := by
  rw [at?_hashed]
  cases d.at? a with
  | none => simp
  | some found => cases found <;> simp [Found.map]

omit [LinearOrder Id] in
/-- A directory whose hashes are exact is exact for its own files. -/
theorem exact_own (h : (hashed d : Disk Id).Exact files) : d.Exact d.file := by
  refine ⟨fun p => rfl, fun a ha => ?_⟩
  obtain ⟨q, hq, hm⟩ := h.dir a (dir_hashed.mpr ha)
  rw [← h.file q, file_hashed] at hq
  exact ⟨q, fun hnone => hq (by rw [hnone]; rfl), hm⟩

omit [LinearOrder Id] in
theorem exact_hashed {f : RepoPath → Option (FileEntry Str)} (h : d.Exact f)
    (hfiles : ∀ p, (f p).map (FileEntry.map (fun bytes => objectId (.blob bytes : Object Id))) = files p) :
    (hashed d : Disk Id).Exact files := by
  refine ⟨fun p => ?_, fun a ha => ?_⟩
  · rw [file_hashed, h.file, hfiles]
  · obtain ⟨q, hq, hm⟩ := h.dir a (dir_hashed.mp ha)
    refine ⟨q, ?_, hm⟩
    rw [← hfiles q]
    exact fun hnone => hq (Option.map_eq_none_iff.mp hnone)

end hashing

/-! ### The loop that removes -/

section removal
variable {s : Site Id} {root : Root} {folder : Folder} {before : Before} {files : RepoPath → Option (FileEntry Id)}

/-- The directories of the old snapshot that are gone. -/
def Gone (files : RepoPath → Option (FileEntry Id)) (d : Disk Str) (removed : List RepoPath) : Prop :=
  ∀ a, a ∈ removed ↔ (∃ q, files q ≠ none ∧ a ∈ q.ancestors) ∧ d.at? a ≠ some .dir

theorem Before.Answers.within (hb : before.Answers s files) (d : Disk Str) :
    before.Answers (within s root folder d) files := by
  cases before with
  | nothing => exact hb
  | «at» version => exact hb

/-- All changed files are removed, and the directories that led to no other file. -/
theorem alone_removeAll (hsound : s.system.Sound) (hs : s.fault = false) (hb : before.Answers s files)
    {changes : List (Write Id)} (hne : ∀ c ∈ changes, c.1.names ≠ []) (hnodup : (changes.map Prod.fst).Nodup)
    {done removed : List RepoPath} {d : Disk Str} (hnew : ∀ c ∈ changes, c.1 ∉ done)
    (hexact : (hashed d : Disk Id).Exact (fun q => if q ∈ done then none else files q))
    (hgone : Gone files d removed) :
    ∃ removed' d', (removeAll root before changes removed).alone (within s root folder d) =
        (.ok removed', within s root folder d') ∧
      (hashed d' : Disk Id).Exact (fun q => if q ∈ done ∨ q ∈ changes.map Prod.fst then none else files q) ∧
      Gone files d' removed' := by
  induction changes generalizing done removed d with
  | nil =>
      refine ⟨removed, d, rfl, ?_, hgone⟩
      simpa using hexact
  | cons change changes ih =>
      obtain ⟨path, new⟩ := change
      rw [List.map_cons, List.nodup_cons] at hnodup
      have hrest : ∀ c ∈ changes, c.1.names ≠ [] := fun c hm => hne c (List.mem_cons_of_mem _ hm)
      have hpath : path ∉ done := hnew _ List.mem_cons_self
      have hnext : ∀ p, (p ∈ path :: done ∨ p ∈ changes.map Prod.fst) ↔
          (p ∈ done ∨ p ∈ ((path, new) :: changes).map Prod.fst) := by
        intro p
        simp only [List.mem_cons, List.map_cons]
        tauto
      have hnew' : ∀ c ∈ changes, c.1 ∉ path :: done := by
        intro c hm hc
        rcases List.mem_cons.mp hc with he | hc
        · exact hnodup.1 (List.mem_map.mpr ⟨c, hm, he⟩)
        · exact hnew c (List.mem_cons_of_mem _ hm) hc
      have hfile : (before.file path).alone (within s root folder d) =
          (.ok (files path).isSome, within s root folder d) :=
        alone_file (show (within s root folder d).system.Sound from hsound) hs (Before.Answers.within hb d)
          (hne _ List.mem_cons_self)
      cases hold : files path with
      | none =>
          have hexact' : (hashed d : Disk Id).Exact (fun q => if q ∈ path :: done then none else files q) := by
            have hsame : (fun q => if q ∈ path :: done then none else files q) =
                (fun q => if q ∈ done then none else files q) := by
              funext q
              by_cases hq : q = path
              · rw [hq, hold]
                simp
              · simp [hq]
            rw [hsame]
            exact hexact
          obtain ⟨removed', d', halone, hexact', hgone'⟩ := ih hrest hnodup.2 hnew' hexact' hgone
          refine ⟨removed', d', ?_, ?_, hgone'⟩
          · unfold removeAll
            rw [Process.alone_bind_of_ok hfile, hold]
            exact halone
          · simpa only [hnext] using hexact'
      | some entry =>
          have hstands : d.file path ≠ none := by
            have hp := hexact.file path
            rw [if_neg hpath, hold, file_hashed] at hp
            intro hnone
            rw [hnone] at hp
            cases hp
          obtain ⟨d₁, hunlink, hexact₁, hor, hdirs⟩ := Disk.exact_removePath (exact_own hexact) hstands
          have hcall : (onDisk root (fun disk => refusable (disk.unlink path)) : BaseM Id Unit).alone
              (within s root folder d) = (.ok (), within s root folder d₁) :=
            alone_onDisk hs (by rw [hunlink]; rfl)
          obtain ⟨removed₁, hparents, hmem⟩ :=
            @alone_removeParents Id s root folder hs path.ancestors.reverse d₁ removed
          have hexact₂ : (hashed (Disk.removeEmptied path.ancestors.reverse d₁) : Disk Id).Exact
              (fun q => if q ∈ path :: done then none else files q) := by
            refine exact_hashed hexact₁ (fun q => ?_)
            have hq := hexact.file q
            rw [file_hashed] at hq
            by_cases he : path = q
            · simp [he]
            · rw [if_neg he, hq]
              simp [Ne.symm he]
          have hgone₂ : Gone files (Disk.removeEmptied path.ancestors.reverse d₁) removed₁ := by
            intro a
            rw [hmem]
            constructor
            · rintro (ha | ⟨_, hnone⟩)
              · obtain ⟨hunder, hno⟩ := (hgone a).mp ha
                refine ⟨hunder, fun hdir => ?_⟩
                rcases hor a with h | h
                · exact hno (h ▸ hdir)
                · rw [h] at hdir
                  cases hdir
              · rename_i hdir
                obtain ⟨q, hq, hm⟩ := hexact.dir a (dir_hashed.mpr ((hdirs a).mp hdir))
                refine ⟨⟨q, ?_, hm⟩, by rw [hnone]; simp⟩
                intro hnone
                rw [hnone, ite_self] at hq
                exact hq rfl
            · rintro ⟨hunder, hno⟩
              by_cases hdir : d.at? a = some .dir
              · rcases hor a with h | h
                · exact absurd (h.trans hdir) hno
                · exact Or.inr ⟨(hdirs a).mpr hdir, h⟩
              · exact Or.inl ((hgone a).mpr ⟨hunder, hdir⟩)
          obtain ⟨removed', d', halone, hexact', hgone'⟩ := ih hrest hnodup.2 hnew' hexact₂ hgone₂
          refine ⟨removed', d', ?_, ?_, hgone'⟩
          · unfold removeAll
            rw [Process.alone_bind_of_ok hfile, hold]
            show ((onDisk root (fun disk => refusable (disk.unlink path)) >>= fun _ =>
              removeParents root path.ancestors.reverse removed >>= fun removed =>
                removeAll root before changes removed).alone _) = _
            rw [Process.alone_bind_of_ok hcall, Process.alone_bind_of_ok hparents]
            exact halone
          · simpa only [hnext] using hexact'

end removal

/-! ### The loop that writes -/

section writing
variable {s : Site Id} {root : Root} {folder : Folder} {before : Before} {files : RepoPath → Option (FileEntry Id)}

/-- The directories that stand: those of the old snapshot that were not removed, and the new ones. -/
def Standing (files : RepoPath → Option (FileEntry Id)) (d : Disk Str) (removed made : List RepoPath) : Prop :=
  ∀ a, d.at? a = some .dir ↔ a ∈ made ∨ (a ∉ removed ∧ ∃ q, files q ≠ none ∧ a ∈ q.ancestors)

/-- Every directory that is missing is created, outermost first. -/
theorem alone_makeParents (hsound : s.system.Sound) (hs : s.fault = false) (hb : before.Answers s files)
    {removed dirs made : List RepoPath} {d : Disk Str} (hstanding : Standing files d removed made)
    (hchain : dirs.Pairwise (fun a b => a ∈ b.ancestors)) (hvalid : ∀ a ∈ dirs, a.Valid)
    (hfree : ∀ a ∈ dirs, d.file a = none) (habove : ∀ a ∈ dirs, ∀ b ∈ a.ancestors, b ∈ dirs ∨ d.at? b = some .dir) :
    ∃ made' d', (makeParents root before removed dirs made).alone (within s root folder d) =
        (.ok made', within s root folder d') ∧
      Standing files d' removed made' ∧ ∀ q, d'.at? q = if q ∈ dirs then some .dir else d.at? q := by
  induction dirs generalizing made d with
  | nil => exact ⟨made, d, rfl, hstanding, fun q => by rw [if_neg List.not_mem_nil]⟩
  | cons dir dirs ih =>
      obtain ⟨hbelow, hchain⟩ := List.pairwise_cons.mp hchain
      have hdir := hvalid dir List.mem_cons_self
      have hdirs : ∀ a ∈ dir.ancestors, d.at? a = some .dir := by
        intro a ha
        rcases habove dir List.mem_cons_self a ha with hm | hm
        · rcases List.mem_cons.mp hm with rfl | hm
          · exact absurd ha (RepoPath.not_mem_ancestors_self a)
          · exact absurd (hbelow a hm) (RepoPath.not_mem_ancestors_of_mem ha)
        · exact hm
      have hstands : ∃ b, (if dir ∈ made then pure true else if dir ∈ removed then pure false
          else before.dir dir : BaseM Id Bool).alone (within s root folder d) =
            (.ok b, within s root folder d) ∧ (b = true ↔ d.at? dir = some .dir) := by
        by_cases hmade : dir ∈ made
        · refine ⟨true, by rw [if_pos hmade]; rfl, ?_⟩
          rw [hstanding dir]
          simp [hmade]
        · by_cases hremoved : dir ∈ removed
          · refine ⟨false, by rw [if_neg hmade, if_pos hremoved]; rfl, ?_⟩
            rw [hstanding dir]
            simp [hmade, hremoved]
          · obtain ⟨b, halone, hiff⟩ := alone_dir (show (within s root folder d).system.Sound from hsound) hs
              (Before.Answers.within hb d) hdir.1
            refine ⟨b, by rw [if_neg hmade, if_neg hremoved]; exact halone, ?_⟩
            rw [hiff, hstanding dir]
            simp [hmade, hremoved]
      obtain ⟨b, halone, hiff⟩ := hstands
      cases b with
      | true =>
          have hat := hiff.mp rfl
          obtain ⟨made', d', hrest, hstanding', hat'⟩ := ih hstanding hchain
            (fun a ha => hvalid a (List.mem_cons_of_mem _ ha)) (fun a ha => hfree a (List.mem_cons_of_mem _ ha))
            (fun a ha b hb => by
              rcases habove a (List.mem_cons_of_mem _ ha) b hb with hm | hm
              · rcases List.mem_cons.mp hm with rfl | hm
                · exact Or.inr hat
                · exact Or.inl hm
              · exact Or.inr hm)
          refine ⟨made', d', ?_, hstanding', fun q => ?_⟩
          · unfold makeParents
            rw [Process.alone_bind_of_ok halone]
            exact hrest
          · rw [hat']
            by_cases hq : dir = q
            · subst hq
              simp [hat]
            · simp [Ne.symm hq]
      | false =>
          have hnone : d.at? dir = none := by
            cases hat : d.at? dir with
            | none => rfl
            | some found =>
                cases found with
                | file entry =>
                    have hfile := hfree dir List.mem_cons_self
                    rw [Disk.file_eq_some.mpr hat] at hfile
                    cases hfile
                | dir => exact absurd (hiff.mpr hat) Bool.false_ne_true
          obtain ⟨d₁, hcreate, hat₁⟩ := Disk.create_spec .dir hnone hdir hdirs
          have hcall : (onDisk root (fun disk => fresh dir (disk.create dir .dir)) : BaseM Id Unit).alone
              (within s root folder d) = (.ok (), within s root folder d₁) :=
            alone_onDisk hs (by rw [hcreate]; rfl)
          have hstanding₁ : Standing files d₁ removed (dir :: made) := by
            intro a
            rw [hat₁, List.mem_cons]
            by_cases ha : dir = a
            · simp [ha]
            · rw [if_neg ha, hstanding a]
              simp [Ne.symm ha]
          obtain ⟨made', d', hrest, hstanding', hat'⟩ := ih hstanding₁ hchain
            (fun a ha => hvalid a (List.mem_cons_of_mem _ ha))
            (fun a ha => by
              by_cases he : dir = a
              · exact Disk.file_eq_none_of_dir (by rw [hat₁, if_pos he])
              · rw [Disk.file_eq_of_at? (show d₁.at? a = d.at? a by rw [hat₁, if_neg he])]
                exact hfree a (List.mem_cons_of_mem _ ha))
            (fun a ha b hb => by
              rw [hat₁]
              by_cases he : dir = b
              · exact Or.inr (if_pos he)
              · rw [if_neg he]
                exact (habove a (List.mem_cons_of_mem _ ha) b hb).imp_left
                  (fun hm => (List.mem_cons.mp hm).resolve_left (Ne.symm he)))
          refine ⟨made', d', ?_, hstanding', fun q => ?_⟩
          · unfold makeParents
            rw [Process.alone_bind_of_ok halone]
            show ((onDisk root (fun disk => fresh dir (disk.create dir .dir)) >>= fun _ =>
              makeParents root before removed dirs (dir :: made)).alone _) = _
            rw [Process.alone_bind_of_ok hcall]
            exact hrest
          · rw [hat', hat₁]
            by_cases hq : dir = q
            · subst hq
              simp
            · simp [hq, Ne.symm hq]

/-- Where nothing stands, an entry whose content is stored is put in place. -/
theorem alone_writeEntry (hs : s.fault = false) {path : RepoPath} {entry : FileEntry Id} {d : Disk Str}
    (hentry : s.system.repository.objects.validateEntry entry = .ok ()) (hnone : d.at? path = none)
    (hvalid : path.Valid) (hdirs : ∀ a ∈ path.ancestors, d.at? a = some .dir) :
    ∃ written d' own, (writeEntry root path entry).alone (within s root folder d) =
        (.ok written, within s root folder d') ∧
      own.map (fun bytes => objectId (.blob bytes : Object Id)) = entry ∧
      ∀ q, d'.at? q = if path = q then some (.file own) else d.at? q := by
  obtain ⟨bytes, hread, _⟩ := except_bind_eq_ok.mp hentry
  have hid := objectId_of_readBlob hread
  cases entry with
  | regular content executable =>
      have hid : objectId (.blob bytes : Object Id) = content := hid
      have hquery : (query (fun r => r.objects.readBlob content) : BaseM Id Str).alone (within s root folder d) =
          (.ok bytes, within s root folder d) := alone_query hs hread
      obtain ⟨d₁, hcreate, hat₁⟩ := Disk.create_spec (.file (.regular [] executable)) hnone hvalid hdirs
      have hself : d₁.at? path = some (.file (.regular [] executable)) := by rw [hat₁, if_pos rfl]
      have hopen : (onDisk root (fun disk => fresh path (disk.create path (.file (.regular [] executable)))) :
          BaseM Id Unit).alone (within s root folder d) = (.ok (), within s root folder d₁) :=
        alone_onDisk hs (by rw [hcreate]; rfl)
      obtain ⟨d', hrename, hat'⟩ := Disk.rename_spec (.regular bytes executable) hvalid (by rw [hself]; simp)
        (fun a ha => Disk.dir_of_mem_ancestors (by rw [hself]; simp) ha)
      have hfill : (onDisk root (fun disk => refusable (disk.rename path (.regular bytes executable))) :
          BaseM Id Unit).alone (within s root folder d₁) = (.ok (), within s root folder d') :=
        alone_onDisk hs (by rw [hrename]; rfl)
      have haside : (aside : BaseM Id Unit).alone (within s root folder d') = (.ok (), within s root folder d') :=
        alone_call (s := within s root folder d') hs rfl
      refine ⟨bytes.length, d', .regular bytes executable, ?_, ?_, fun q => ?_⟩
      · unfold writeEntry
        dsimp only
        rw [Process.alone_bind_of_ok hquery, Process.alone_bind_of_ok hopen, Process.alone_bind_of_ok hfill,
          Process.alone_bind_of_ok haside]
        rfl
      · rw [← hid]
        rfl
      · rw [hat', hat₁]
        by_cases hq : path = q
        · rw [if_pos hq, if_pos hq]
        · rw [if_neg hq, if_neg hq, if_neg hq]
  | symlink target =>
      have hid : objectId (.blob bytes : Object Id) = target := hid
      have hquery : (query (fun r => r.objects.readBlob target) : BaseM Id Str).alone (within s root folder d) =
          (.ok bytes, within s root folder d) := alone_query hs hread
      obtain ⟨d', hcreate, hat'⟩ := Disk.create_spec (.file (.symlink bytes)) hnone hvalid hdirs
      have hlink : (onDisk root (fun disk => fresh path (disk.create path (.file (.symlink bytes)))) :
          BaseM Id Unit).alone (within s root folder d) = (.ok (), within s root folder d') :=
        alone_onDisk hs (by rw [hcreate]; rfl)
      refine ⟨0, d', .symlink bytes, ?_, ?_, hat'⟩
      · unfold writeEntry
        dsimp only
        rw [Process.alone_bind_of_ok hquery, Process.alone_bind_of_ok hlink]
        rfl
      · rw [← hid]
        rfl

/-- While the new entries are put in place, the files are among those of the new snapshot. -/
theorem alone_writeAll (hsound : s.system.Sound) (hs : s.fault = false) (hb : before.Answers s files)
    {after : Manifest Id} {removed made : List RepoPath} {changes : List (Write Id)} {d : Disk Str}
    {current : RepoPath → Option (FileEntry Id)} (written : ℕ) (hexact : (hashed d : Disk Id).Exact current)
    (hstanding : Standing files d removed made) (hamong : ∀ p, current p ≠ none → after.entries.get? p ≠ none)
    (hnew : ∀ p entry, (p, some entry) ∈ changes → after.entries.get? p ≠ none ∧ current p = none ∧
      s.system.repository.objects.validateEntry entry = .ok ()) (hnodup : (changes.map Prod.fst).Nodup) :
    ∃ written' d', (writeAll root before removed changes made written).alone (within s root folder d) =
        (.ok written', within s root folder d') ∧ (hashed d' : Disk Id).Exact (placed current changes) := by
  induction changes generalizing made d current written with
  | nil => exact ⟨written, d, rfl, hexact⟩
  | cons change changes ih =>
      obtain ⟨path, new⟩ := change
      rw [List.map_cons, List.nodup_cons] at hnodup
      cases new with
      | none =>
          exact ih written hexact hstanding hamong
            (fun p entry hm => hnew p entry (List.mem_cons_of_mem _ hm)) hnodup.2
      | some entry =>
          obtain ⟨hafter, hcurrent, hentry⟩ := hnew path entry List.mem_cons_self
          have hkey : path ∈ after.entries.keys := SortedMap.mem_keys.mpr (Option.isSome_iff_ne_none.mpr hafter)
          have hvalid := after.valid path hkey
          have hapart : ∀ p, after.entries.get? p ≠ none → ∀ a ∈ p.ancestors, current a = none := by
            intro p hp a ha
            by_contra hne
            exact after.disjoint p (SortedMap.mem_keys.mpr (Option.isSome_iff_ne_none.mpr hp)) a ha
              (SortedMap.mem_keys.mpr (Option.isSome_iff_ne_none.mpr (hamong a hne)))
          have hfile : ∀ a, current a = none → d.file a = none := by
            intro a ha
            have hhashed := hexact.file a
            rw [file_hashed, ha] at hhashed
            exact Option.map_eq_none_iff.mp hhashed
          have hnone : d.at? path = none := by
            cases hat : d.at? path with
            | none => rfl
            | some found =>
                cases found with
                | file own =>
                    have hno := hfile path hcurrent
                    rw [Disk.file_eq_some.mpr hat] at hno
                    cases hno
                | dir =>
                    obtain ⟨q, hq, hm⟩ := hexact.dir path (dir_hashed.mpr hat)
                    exact absurd hkey (after.disjoint q
                      (SortedMap.mem_keys.mpr (Option.isSome_iff_ne_none.mpr (hamong q hq))) path hm)
          obtain ⟨made₁, d₁, hparents, hstanding₁, hat₁⟩ := alone_makeParents hsound hs hb hstanding
            path.pairwise_ancestors (fun a ha => hvalid.of_mem_ancestors ha)
            (fun a ha => hfile a (hapart path hafter a ha))
            (fun a ha b hb => Or.inl (RepoPath.ancestors_trans hb ha))
          have hnone₁ : d₁.at? path = none := by
            rw [hat₁, if_neg (RepoPath.not_mem_ancestors_self path), hnone]
          obtain ⟨bytes, d₂, own, hwrite, hown, hat₂⟩ := alone_writeEntry hs hentry hnone₁ hvalid
            (fun a ha => by rw [hat₁, if_pos ha])
          have hdir₂ : ∀ a, d₂.at? a = some .dir ↔ d₁.at? a = some .dir := by
            intro a
            rw [hat₂]
            by_cases ha : path = a
            · rw [if_pos ha, ← ha, hnone₁]
              simp
            · rw [if_neg ha]
          have hexact₂ : (hashed d₂ : Disk Id).Exact (fun p => if path = p then some entry else current p) := by
            refine ⟨fun p => ?_, fun a ha => ?_⟩
            · rw [file_hashed]
              by_cases hp : path = p
              · rw [if_pos hp, Disk.file_eq_some.mpr (by rw [hat₂, if_pos hp]), Option.map_some, hown]
              · rw [if_neg hp, Disk.file_eq_of_at? (show d₂.at? p = d₁.at? p by rw [hat₂, if_neg hp])]
                by_cases habove : p ∈ path.ancestors
                · rw [Disk.file_eq_none_of_dir (by rw [hat₁, if_pos habove]), hapart path hafter p habove]
                  rfl
                · rw [Disk.file_eq_of_at? (show d₁.at? p = d.at? p by rw [hat₁, if_neg habove]), ← file_hashed,
                    hexact.file p]
            · have hdir := (hdir₂ a).mp (dir_hashed.mp ha)
              rw [hat₁] at hdir
              by_cases habove : a ∈ path.ancestors
              · exact ⟨path, by simp, habove⟩
              · rw [if_neg habove] at hdir
                obtain ⟨q, hq, hm⟩ := hexact.dir a (dir_hashed.mpr hdir)
                refine ⟨q, ?_, hm⟩
                split
                · exact Option.some_ne_none entry
                · exact hq
          have hstanding₂ : Standing files d₂ removed made₁ := fun a => (hdir₂ a).trans (hstanding₁ a)
          obtain ⟨written', d', hrest, hexact'⟩ := ih (written + bytes) hexact₂ hstanding₂
            (fun p hp => by
              by_cases he : path = p
              · exact he ▸ hafter
              · exact hamong p (by rwa [if_neg he] at hp))
            (fun p e hm => by
              obtain ⟨ha, hc, he⟩ := hnew p e (List.mem_cons_of_mem _ hm)
              refine ⟨ha, ?_, he⟩
              rw [if_neg, hc]
              rintro rfl
              exact hnodup.1 (List.mem_map.mpr ⟨_, hm, rfl⟩))
            hnodup.2
          refine ⟨written', d', ?_, hexact'⟩
          unfold writeAll
          rw [Process.alone_bind_of_ok hparents, Process.alone_bind_of_ok hwrite]
          exact hrest

end writing

/-! ### The whole application -/

section whole
variable {s : Site Id} {root : Root} {folder : Folder} {before : Before} {files : RepoPath → Option (FileEntry Id)}
  {after : Manifest Id} {changes : List (Write Id)}

/-- The paths on which two snapshots differ, each with its new entry, in any order. -/
structure Changeset (files : RepoPath → Option (FileEntry Id)) (after : Manifest Id) (changes : List (Write Id)) :
    Prop where
  nodup : (changes.map Prod.fst).Nodup
  mem : ∀ p new, (p, new) ∈ changes ↔ files p ≠ after.entries.get? p ∧ new = after.entries.get? p

omit [LinearOrder Id] [Encoding Id] in
theorem Changeset.mem_paths (h : Changeset files after changes) {p : RepoPath} :
    p ∈ changes.map Prod.fst ↔ files p ≠ after.entries.get? p := by
  rw [List.mem_map]
  constructor
  · rintro ⟨⟨q, new⟩, hm, rfl⟩
    exact ((h.mem q new).mp hm).1
  · intro hne
    exact ⟨(p, after.entries.get? p), (h.mem p _).mpr ⟨hne, rfl⟩, rfl⟩

omit [LinearOrder Id] [Encoding Id] in
theorem Changeset.placed (h : Changeset files after changes) :
    placed (fun p => if p ∈ changes.map Prod.fst then none else files p) changes = after.entries.get? := by
  funext p
  by_cases hp : p ∈ changes.map Prod.fst
  · have hm := (h.mem p _).mpr ⟨h.mem_paths.mp hp, rfl⟩
    cases hafter : after.entries.get? p with
    | some entry =>
        rw [hafter] at hm
        exact placed_of_mem h.nodup hm
    | none =>
        rw [placed_of_not_mem, if_pos hp]
        intro entry hentry
        have heq := ((h.mem p _).mp hentry).2
        rw [hafter] at heq
        cases heq
  · rw [placed_of_not_mem (fun entry hm => hp (List.mem_map.mpr ⟨_, hm, rfl⟩)), if_neg hp]
    by_contra hne
    exact hp (h.mem_paths.mpr hne)

/-- Applied where the old files are, and only they, a changeset leaves the new files, and only them. -/
theorem alone_apply (hsound : s.system.Sound) (hs : s.fault = false) (hb : before.Answers s files)
    (hfolder : s.store.folder root = some folder) (hexact : (hashed folder.disk : Disk Id).Exact files)
    (h : Changeset files after changes)
    (hstored : ∀ p entry, after.entries.get? p = some entry →
      s.system.repository.objects.validateEntry entry = .ok ()) :
    ∃ written disk, (apply root before changes).alone s =
        (.ok (changes.length, written), within s root folder disk) ∧
      (hashed disk : Disk Id).Exact after.entries.get? := by
  have hvalid : ∀ c ∈ changes, c.1.names ≠ [] := by
    rintro ⟨p, new⟩ hm
    have hne := ((h.mem p new).mp hm).1
    cases hafter : after.entries.get? p with
    | some entry =>
        have hsome : (after.entries.get? p).isSome := by rw [hafter]; rfl
        exact (after.valid p (SortedMap.mem_keys.mpr hsome)).1
    | none =>
        rw [hafter, ← hexact.file p] at hne
        have hat := Disk.at?_ne_none_of_file hne
        exact ((hashed folder.disk : Disk Id).valid p (Disk.mem_keys.mpr hat)).1
  have hnone : (fun q => if q ∈ ([] : List RepoPath) then none else files q) = files := by
    funext q
    exact if_neg List.not_mem_nil
  have hall : Gone files folder.disk [] := by
    intro a
    have hdir : folder.disk.at? a = some .dir ↔ ∃ q, files q ≠ none ∧ a ∈ q.ancestors :=
      dir_hashed.symm.trans hexact.dir_iff
    refine ⟨fun hm => absurd hm List.not_mem_nil, fun ⟨hunder, hno⟩ => absurd (hdir.mpr hunder) hno⟩
  obtain ⟨removed, d, hremove, hbetween, hgone⟩ := alone_removeAll hsound hs hb hvalid h.nodup
    (fun c _ => List.not_mem_nil) (by rw [hnone]; exact hexact) hall
  have hbetween : (hashed d : Disk Id).Exact (fun q => if q ∈ changes.map Prod.fst then none else files q) := by
    have hnone : (fun q => if q ∈ [] ∨ q ∈ changes.map Prod.fst then none else files q) =
        (fun q => if q ∈ changes.map Prod.fst then none else files q) := by
      funext q
      exact if_congr (or_iff_right List.not_mem_nil) rfl rfl
    rwa [hnone] at hbetween
  have hstanding : Standing files d removed [] := by
    intro a
    simp only [List.not_mem_nil, false_or, hgone a]
    constructor
    · intro hdir
      obtain ⟨q, hq, hm⟩ := hbetween.dir a (dir_hashed.mpr hdir)
      have hunder : ∃ q, files q ≠ none ∧ a ∈ q.ancestors :=
        ⟨q, fun hnone => hq (by rw [hnone, ite_self]), hm⟩
      exact ⟨fun hno => hno.2 hdir, hunder⟩
    · rintro ⟨hno, hunder⟩
      by_contra hdir
      exact hno ⟨hunder, hdir⟩
  obtain ⟨written, disk, hwrite, hafter⟩ := alone_writeAll hsound hs hb 0 hbetween hstanding
    (fun p hp => by
      split at hp
      · exact absurd rfl hp
      · rename_i hno
        have hsame : files p = after.entries.get? p := by
          by_contra hne
          exact hno (h.mem_paths.mpr hne)
        rwa [← hsame])
    (fun p entry hm => by
      have hentry := ((h.mem p _).mp hm).2
      exact ⟨by rw [← hentry]; simp, if_pos (List.mem_map.mpr ⟨_, hm, rfl⟩), hstored p entry hentry.symm⟩)
    h.nodup
  refine ⟨written, disk, ?_, ?_⟩
  · unfold apply
    rw [within_folder hfolder] at hremove
    rw [Process.alone_bind_of_ok hremove, Process.alone_bind_of_ok hwrite]
    rfl
  · rwa [h.placed] at hafter

omit [LinearOrder Id] [Encoding Id] in
/-- A snapshot as the changeset of nothing. -/
theorem changeset_manifest (m : Manifest Id) :
    Changeset (fun _ => none) m (m.entries.toList.map (fun e => (e.1, some e.2))) := by
  refine ⟨?_, fun p new => ?_⟩
  · rw [List.map_map]
    exact m.entries.keys_nodup
  · rw [List.mem_map]
    constructor
    · rintro ⟨⟨q, entry⟩, hm, he⟩
      cases he
      rw [SortedMap.get?_eq_some.mpr hm]
      exact ⟨by simp, rfl⟩
    · rintro ⟨hne, rfl⟩
      obtain ⟨entry, hentry⟩ := Option.ne_none_iff_exists'.mp (Ne.symm hne)
      exact ⟨(p, entry), SortedMap.get?_eq_some.mp hentry, by rw [hentry]⟩

/-- The changes from one snapshot to another, applied to a directory with just the files of the first, leave what a
fresh materialization of the second would. -/
theorem apply_incremental {version : VersionNumber} {old : Manifest Id} (hreach : System.Reachable s.system)
    (hs : s.fault = false) (hold : s.system.repository.manifestAt version = .ok old)
    (hfolder : s.store.folder root = some folder) (hexact : (hashed folder.disk : Disk Id).Exact old.entries.get?)
    (h : Changeset old.entries.get? after changes)
    (hstored : ∀ p entry, after.entries.get? p = some entry →
      s.system.repository.objects.validateEntry entry = .ok ()) :
    ∃ written disk, (apply root (.at version) changes).alone s =
        (.ok (changes.length, written), within s root folder disk) ∧
      (hashed disk : Disk Id).Exact after.entries.get? ∧
      ∃ counts fresh, (apply root .nothing (after.entries.toList.map (fun e => (e.1, some e.2)))).alone
          (within s root folder .nothing) = (.ok counts, within s root folder fresh) ∧
        ∀ p, (hashed disk : Disk Id).at? p = (hashed fresh : Disk Id).at? p := by
  have hsound := hreach.sound
  have hbefore : (Before.at version).Answers s old.entries.get? := ⟨old, hold, fun _ => rfl⟩
  obtain ⟨written, disk, halone, hdisk⟩ := alone_apply hsound hs hbefore hfolder hexact h hstored
  have hnothing : Before.nothing.Answers (within s root folder .nothing) (fun _ => none) := fun _ => rfl
  have hempty : (hashed (.nothing : Disk Str) : Disk Id).Exact (fun _ => none) :=
    ⟨fun _ => rfl, fun a ha => by cases ha⟩
  obtain ⟨bytes, fresh, hfresh, hexact'⟩ := alone_apply
    (show (within s root folder .nothing).system.Sound from hsound) hs hnothing (folder_setFolder _ _ root) hempty
    (changeset_manifest after) hstored
  have hwithin : within (within s root folder .nothing) root { folder with disk := .nothing } fresh =
      within s root folder fresh := by cases root <;> rfl
  rw [hwithin] at hfresh
  exact ⟨written, disk, halone, hdisk, _, fresh, hfresh, hdisk.at?_eq hexact'⟩

end whole

/-! ### A file in a directory -/

/-- The snapshot with one file, in a directory. -/
def nested (entry : FileEntry ℕ) : Manifest ℕ where
  entries := SortedMap.empty.insert ⟨[⟨[98], validName_b⟩, ⟨[97], validName_a⟩]⟩ entry
  valid := by
    intro q hq
    rw [SortedMap.mem_keys, SortedMap.get?_insert] at hq
    split at hq
    · rename_i he
      rw [← he]
      decide
    · cases hq
  disjoint := by
    intro q hq a ha hm
    rw [SortedMap.mem_keys, SortedMap.get?_insert] at hq hm
    split at hq
    · rename_i he
      split at hm
      · rename_i he'
        rw [← he, ← he'] at ha
        exact RepoPath.not_mem_ancestors_self _ ha
      · cases hm
    · cases hq

/-- An executable, whose content is stored, is put into an empty staging directory. -/
theorem apply_incremental_nested : ∃ (s : Site ℕ) (disk : Disk Str) (written : ℕ),
    System.Reachable s.system ∧ s.fault = false ∧
      (apply .staging (.at 0) ((nested (.regular System.emptyBlob true)).entries.toList.map
        (fun e => (e.1, some e.2)))).alone s = (.ok (1, written), within s .staging ⟨.nothing, 0o700⟩ disk) ∧
      (hashed disk : Disk ℕ).Exact (nested (.regular System.emptyBlob true)).entries.get? := by
  obtain ⟨S₀, hs₀⟩ := (System.initial_sound (0 : ℕ)).repository
  obtain ⟨objects, hput, hblob⟩ := System.exists_putBlob hs₀.chain.honest []
  have hreach : System.Reachable (⟨{ Repository.initial (0 : ℕ) with objects := objects }, []⟩ : System ℕ) :=
    ⟨0, .single (.transact (.putBlob hput))⟩
  obtain ⟨S, hs⟩ := hreach.sound.repository
  have hzero : ({ Repository.initial (0 : ℕ) with objects := objects } : Repository ℕ).manifestAt 0 =
      .ok Manifest.empty := by
    rw [← hs.chain.genesis]
    exact hs.chain.manifestAt_eq hs.chain.first
  have hfolder : (⟨none, none, some ⟨.nothing, 0o700⟩, fun _ => none, []⟩ : StoreDir).folder .staging =
      some ⟨.nothing, 0o700⟩ := rfl
  obtain ⟨written, disk, halone, hexact, _⟩ := @apply_incremental ℕ _ _
    ⟨⟨{ Repository.initial (0 : ℕ) with objects := objects }, []⟩,
      ⟨none, none, some ⟨.nothing, 0o700⟩, fun _ => none, []⟩, false⟩
    .staging ⟨.nothing, 0o700⟩ _ _ 0 _ hreach rfl hzero hfolder ⟨fun _ => rfl, fun a ha => by cases ha⟩
    (changeset_manifest (nested (.regular System.emptyBlob true)))
    (by
      intro p entry hentry
      rw [show (nested (.regular System.emptyBlob true)).entries.get? p = _ from SortedMap.get?_insert _ _ _ _]
        at hentry
      split at hentry
      · cases hentry
        exact except_bind_of_ok hblob
      · cases hentry)
  exact ⟨_, disk, written, hreach, rfl, halone, hexact⟩

end RollingBase

end Javelin
