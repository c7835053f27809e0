import Javelin.Domain

/-! # A directory on disk

`Disk` is a directory at rest on a case-sensitive volume: its regular files, symbolic links and
directories, empty directories included.  Its calls are those a workspace uses, each with the cases
in which the system refuses it (`unlink`, `rmdir`, `mkdir`, `rename`).  `removePath` takes a file away
with the directories it leaves empty (`removePath_spec`), and `placeFile` makes the directories above
a file and puts the file in place (`placeFile_spec`).  `scan` reads the files into a snapshot. -/

namespace Javelin

open KeyedList

/-! ### Ancestors -/

namespace RepoPath

theorem ancestors_trans {a b p : RepoPath} (hab : a ∈ b.ancestors) (hbp : b ∈ p.ancestors) :
    a ∈ p.ancestors := by
  obtain ⟨hne, r, hr, hb⟩ := mem_ancestors.mp hab
  obtain ⟨_, s, _, hp⟩ := mem_ancestors.mp hbp
  refine mem_ancestors.mpr ⟨hne, r ++ s, by simp [hr], ?_⟩
  rw [hp, hb, List.append_assoc]

theorem length_lt_of_mem_ancestors {a p : RepoPath} (h : a ∈ p.ancestors) :
    a.names.length < p.names.length := by
  obtain ⟨_, r, hr, hp⟩ := mem_ancestors.mp h
  have := List.length_pos_iff.mpr hr
  rw [hp, List.length_append]
  omega

theorem not_mem_ancestors_self (p : RepoPath) : p ∉ p.ancestors :=
  fun h => absurd (length_lt_of_mem_ancestors h) (lt_irrefl _)

theorem not_mem_ancestors_of_mem {a p : RepoPath} (h : a ∈ p.ancestors) : p ∉ a.ancestors :=
  fun h' => not_mem_ancestors_self p (ancestors_trans h' h)

/-- Two directories above one path lie above one another. -/
theorem ancestors_total {a b p : RepoPath} (ha : a ∈ p.ancestors) (hb : b ∈ p.ancestors) :
    a = b ∨ a ∈ b.ancestors ∨ b ∈ a.ancestors := by
  obtain ⟨hna, r, _, hpa⟩ := mem_ancestors.mp ha
  obtain ⟨hnb, s, _, hpb⟩ := mem_ancestors.mp hb
  rcases List.append_eq_append_iff.mp (hpa.symm.trans hpb) with ⟨t, ht, _⟩ | ⟨t, ht, _⟩
  · by_cases hte : t = []
    · subst hte
      exact Or.inl (names_injective (by rw [ht, List.append_nil]))
    · exact Or.inr (Or.inl (mem_ancestors.mpr ⟨hna, t, hte, ht⟩))
  · by_cases hte : t = []
    · subst hte
      exact Or.inl (names_injective (by rw [ht, List.append_nil]))
    · exact Or.inr (Or.inr (mem_ancestors.mpr ⟨hnb, t, hte, ht⟩))

/-- Each ancestor in the list is above the next one. -/
theorem pairwise_ancestors (p : RepoPath) : p.ancestors.Pairwise (fun a b => a ∈ b.ancestors) := by
  unfold ancestors
  rw [List.pairwise_map]
  have hsub := List.pairwise_lt_range (n := p.names.length - 1)
  have hmem : ∀ i ∈ List.range (p.names.length - 1), i < p.names.length - 1 := fun i hi => List.mem_range.mp hi
  refine List.Pairwise.imp_of_mem (fun {i j} hi hj hlt => ?_) hsub
  have hi' := hmem i hi
  have hj' := hmem j hj
  refine mem_ancestors.mpr ⟨?_, (p.names.take (j + 1)).drop (i + 1), ?_, ?_⟩
  · rw [← List.length_pos_iff, List.length_take]; omega
  · rw [← List.length_pos_iff, List.length_drop, List.length_take]; omega
  · show p.names.take (j + 1) = p.names.take (i + 1) ++ _
    have htake : p.names.take (i + 1) = (p.names.take (j + 1)).take (i + 1) := by
      rw [List.take_take, Nat.min_eq_left (by omega)]
    rw [htake, List.take_append_drop]

theorem Valid.of_mem_ancestors {a p : RepoPath} (h : p.Valid) (ha : a ∈ p.ancestors) : a.Valid := by
  obtain ⟨hne, r, _, hp⟩ := mem_ancestors.mp ha
  have hv : Valid ⟨a.names ++ r⟩ := by
    rw [← hp]
    exact h
  exact hv.prefix hne

end RepoPath

/-! ### Directories -/

/-- What stands at a path. -/
inductive Found (Id : Type) where
  | file (entry : FileEntry Id)
  | dir
deriving DecidableEq

/-- A directory: everything in it stands in a directory. -/
structure Disk (Id : Type) where
  found : SortedMap RepoPath (Found Id)
  valid : ∀ p ∈ found.keys, p.Valid
  within : ∀ p ∈ found.keys, ∀ a ∈ p.ancestors, found.get? a = some .dir

namespace Disk
variable {Id : Type}

/-- `fs::symlink_metadata`; links are never followed. -/
def at? (d : Disk Id) (p : RepoPath) : Option (Found Id) := d.found.get? p

instance (d : Disk Id) (p : RepoPath) : Decidable (d.at? p = some .dir) :=
  match d.at? p with
  | some .dir => isTrue rfl
  | some (.file _) => isFalse (by simp)
  | none => isFalse (by simp)

/-- The file or link at a path. -/
def file (d : Disk Id) (p : RepoPath) : Option (FileEntry Id) :=
  match d.at? p with
  | some (.file entry) => some entry
  | _ => none

theorem mem_keys {d : Disk Id} {p : RepoPath} : p ∈ d.found.keys ↔ d.at? p ≠ none := by
  rw [SortedMap.mem_keys, Option.isSome_iff_ne_none]
  rfl

theorem file_eq_some {d : Disk Id} {p : RepoPath} {entry : FileEntry Id} :
    d.file p = some entry ↔ d.at? p = some (.file entry) := by
  unfold file
  split
  · rename_i e he
    rw [he]
    simp
  · rename_i h
    constructor
    · intro h'
      cases h'
    · intro h'
      exact absurd h' (h entry)

theorem file_eq_of_at? {d d' : Disk Id} {p q : RepoPath} (h : d.at? p = d'.at? q) : d.file p = d'.file q := by
  unfold file
  rw [h]

theorem file_eq_none_of_at? {d : Disk Id} {p : RepoPath} (h : d.at? p = none) : d.file p = none := by
  unfold file
  rw [h]

theorem file_eq_none_of_dir {d : Disk Id} {p : RepoPath} (h : d.at? p = some .dir) : d.file p = none := by
  unfold file
  rw [h]

theorem valid_of_at? {d : Disk Id} {p : RepoPath} (h : d.at? p ≠ none) : p.Valid := d.valid p (mem_keys.mpr h)

theorem dir_of_mem_ancestors {d : Disk Id} {p a : RepoPath} (h : d.at? p ≠ none) (ha : a ∈ p.ancestors) :
    d.at? a = some .dir :=
  d.within p (mem_keys.mpr h) a ha

/-! ### Reading -/

/-- `fs::read_dir`: what stands directly in a directory, the root for no names. -/
def readDir (d : Disk Id) (dir : List Name) : List RepoPath :=
  d.found.keys.filter (fun p => decide (p.names.dropLast = dir))

/-- The files of a directory in path order. -/
def files (d : Disk Id) : SortedMap RepoPath (FileEntry Id) :=
  ⟨d.found.toList.filterMap (fun e => match e.2 with
      | .file entry => some (e.1, entry)
      | .dir => none),
    d.found.ascending.filterMap (by
      intro e _ r hr
      split at hr
      · cases hr
        rfl
      · cases hr)⟩

theorem get?_files (d : Disk Id) (p : RepoPath) : d.files.get? p = d.file p := by
  apply Option.ext
  intro entry
  rw [SortedMap.get?_eq_some, file_eq_some]
  unfold files at?
  rw [SortedMap.get?_eq_some, List.mem_filterMap]
  constructor
  · intro h
    obtain ⟨⟨q, found⟩, hm, h⟩ := h
    cases found with
    | file e =>
        cases h
        exact hm
    | dir => cases h
  · intro h
    exact ⟨(p, .file entry), h, rfl⟩

/-- What a scan of a directory at rest finds, with no ignored file in it. -/
def scan (d : Disk Id) : Manifest Id where
  entries := d.files
  valid := by
    intro p hp
    rw [SortedMap.mem_keys, get?_files] at hp
    obtain ⟨entry, he⟩ := Option.isSome_iff_exists.mp hp
    exact valid_of_at? (by rw [file_eq_some.mp he]; simp)
  disjoint := by
    intro p hp a ha hak
    rw [SortedMap.mem_keys, get?_files] at hp hak
    obtain ⟨entry, he⟩ := Option.isSome_iff_exists.mp hp
    have hdir := dir_of_mem_ancestors (by rw [file_eq_some.mp he]; simp) ha
    rw [file_eq_none_of_dir hdir] at hak
    cases hak

@[simp] theorem get?_scan (d : Disk Id) (p : RepoPath) : d.scan.entries.get? p = d.file p := d.get?_files p

/-! ### Changing one entry -/

/-- `fs::remove_file`: refused where no file or link stands. -/
def unlink (d : Disk Id) (p : RepoPath) : Option (Disk Id) :=
  match h : d.at? p with
  | some (.file _) => some
      { found := d.found.erase p
        valid := by
          intro q hq
          rw [SortedMap.mem_keys, SortedMap.get?_erase] at hq
          split at hq
          · cases hq
          · exact d.valid q (SortedMap.mem_keys.mpr hq)
        within := by
          intro q hq a ha
          rw [SortedMap.mem_keys, SortedMap.get?_erase] at hq
          split at hq
          · cases hq
          · have hdir := d.within q (SortedMap.mem_keys.mpr hq) a ha
            rw [SortedMap.get?_erase, if_neg, hdir]
            rintro rfl
            exact absurd (h.symm.trans hdir) (by simp) }
  | _ => none

theorem unlink_spec {d : Disk Id} {p : RepoPath} {entry : FileEntry Id} (h : d.at? p = some (.file entry)) :
    ∃ d', d.unlink p = some d' ∧ ∀ q, d'.at? q = if p = q then none else d.at? q := by
  unfold unlink
  split
  · exact ⟨_, rfl, fun q => SortedMap.get?_erase _ _ _⟩
  · rename_i hno
    exact absurd h (hno entry)

/-- Nothing stands below the path. -/
def Vacant (d : Disk Id) (p : RepoPath) : Prop := ∀ q ∈ d.found.keys, p ∉ q.ancestors

instance (d : Disk Id) (p : RepoPath) : Decidable (d.Vacant p) := inferInstanceAs (Decidable (∀ q ∈ _, _))

theorem vacant_iff {d : Disk Id} {p : RepoPath} : d.Vacant p ↔ ∀ q, d.at? q ≠ none → p ∉ q.ancestors :=
  ⟨fun h q hq => h q (mem_keys.mpr hq), fun h q hq => h q (mem_keys.mp hq)⟩

/-- `fs::remove_dir`: refused where no empty directory stands. -/
def rmdir (d : Disk Id) (p : RepoPath) : Option (Disk Id) :=
  if h : d.at? p = some .dir ∧ d.Vacant p then some
    { found := d.found.erase p
      valid := by
        intro q hq
        rw [SortedMap.mem_keys, SortedMap.get?_erase] at hq
        split at hq
        · cases hq
        · exact d.valid q (SortedMap.mem_keys.mpr hq)
      within := by
        intro q hq a ha
        rw [SortedMap.mem_keys, SortedMap.get?_erase] at hq
        split at hq
        · cases hq
        · have hq := SortedMap.mem_keys.mpr hq
          rw [SortedMap.get?_erase, if_neg, d.within q hq a ha]
          rintro rfl
          exact h.2 q hq ha }
  else none

theorem rmdir_eq_some {d d' : Disk Id} {p : RepoPath} (h : d.rmdir p = some d') :
    d.Vacant p ∧ ∀ q, d'.at? q = if p = q then none else d.at? q := by
  unfold rmdir at h
  split at h
  · rename_i hp
    injection h with h
    subst h
    exact ⟨hp.2, fun q => SortedMap.get?_erase _ _ _⟩
  · cases h

theorem rmdir_eq_none {d : Disk Id} {p : RepoPath} (hdir : d.at? p = some .dir) (h : d.rmdir p = none) :
    ∃ q, d.at? q ≠ none ∧ p ∈ q.ancestors := by
  unfold rmdir at h
  split at h
  · cases h
  · rename_i hp
    rw [vacant_iff] at hp
    by_contra hno
    exact hp ⟨hdir, fun q hq hm => hno ⟨q, hq, hm⟩⟩

/-- `fs::create_dir`, and nothing for a directory that stands. -/
def mkdir (d : Disk Id) (p : RepoPath) : Option (Disk Id) :=
  if d.at? p = some .dir then some d
  else if h : p.Valid ∧ d.at? p = none ∧ ∀ a ∈ p.ancestors, d.at? a = some .dir then some
    { found := d.found.insert p .dir
      valid := by
        intro q hq
        rw [SortedMap.mem_keys, SortedMap.get?_insert] at hq
        split at hq
        · rename_i he
          rw [← he]
          exact h.1
        · exact d.valid q (SortedMap.mem_keys.mpr hq)
      within := by
        intro q hq a ha
        rw [SortedMap.mem_keys, SortedMap.get?_insert] at hq
        rw [SortedMap.get?_insert]
        split
        · rfl
        · split at hq
          · rename_i he
            rw [← he] at ha
            exact h.2.2 a ha
          · exact d.within q (SortedMap.mem_keys.mpr hq) a ha }
  else none

theorem mkdir_spec {d : Disk Id} {p : RepoPath} (hvalid : p.Valid) (hfree : d.file p = none)
    (hdirs : ∀ a ∈ p.ancestors, d.at? a = some .dir) :
    ∃ d', d.mkdir p = some d' ∧ ∀ q, d'.at? q = if p = q then some .dir else d.at? q := by
  unfold mkdir
  split
  · rename_i hdir
    refine ⟨d, rfl, fun q => ?_⟩
    split
    · rename_i he
      rw [← he, hdir]
    · rfl
  · rename_i hdir
    have hnone : d.at? p = none := by
      cases hat : d.at? p with
      | none => rfl
      | some found =>
          cases found with
          | file entry =>
              rw [file_eq_some.mpr hat] at hfree
              cases hfree
          | dir => exact absurd hat hdir
    rw [dif_pos ⟨hvalid, hnone, hdirs⟩]
    exact ⟨_, rfl, fun q => SortedMap.get?_insert _ _ _ _⟩

/-- `fs::rename` of a staged copy: refused over a directory, and where the parent is missing. -/
def rename (d : Disk Id) (p : RepoPath) (entry : FileEntry Id) : Option (Disk Id) :=
  if h : p.Valid ∧ d.at? p ≠ some .dir ∧ ∀ a ∈ p.ancestors, d.at? a = some .dir then some
    { found := d.found.insert p (.file entry)
      valid := by
        intro q hq
        rw [SortedMap.mem_keys, SortedMap.get?_insert] at hq
        split at hq
        · rename_i he
          rw [← he]
          exact h.1
        · exact d.valid q (SortedMap.mem_keys.mpr hq)
      within := by
        intro q hq a ha
        rw [SortedMap.mem_keys, SortedMap.get?_insert] at hq
        have hdir : d.found.get? a = some .dir := by
          split at hq
          · rename_i he
            rw [← he] at ha
            exact h.2.2 a ha
          · exact d.within q (SortedMap.mem_keys.mpr hq) a ha
        rw [SortedMap.get?_insert, if_neg, hdir]
        rintro rfl
        exact h.2.1 hdir }
  else none

theorem rename_spec {d : Disk Id} {p : RepoPath} (entry : FileEntry Id) (hvalid : p.Valid)
    (hfree : d.at? p ≠ some .dir) (hdirs : ∀ a ∈ p.ancestors, d.at? a = some .dir) :
    ∃ d', d.rename p entry = some d' ∧ ∀ q, d'.at? q = if p = q then some (.file entry) else d.at? q := by
  unfold rename
  rw [dif_pos ⟨hvalid, hfree, hdirs⟩]
  exact ⟨_, rfl, fun q => SortedMap.get?_insert _ _ _ _⟩

/-! ### Removing a path -/

/-- Removes the directories, nearest first, up to the first one that is not empty. -/
def removeEmptied : List RepoPath → Disk Id → Disk Id
  | [], d => d
  | dir :: dirs, d =>
      match d.rmdir dir with
      | some d' => removeEmptied dirs d'
      | none => d

/-- `remove`: a path that is gone already is not an error, a path below a file is. -/
def removePath (d : Disk Id) (p : RepoPath) : Option (Disk Id) :=
  match d.at? p with
  | some _ => (d.unlink p).map (removeEmptied p.ancestors.reverse)
  | none =>
      if ∃ a ∈ p.ancestors, d.file a ≠ none then none
      else some (removeEmptied p.ancestors.reverse d)

/-- A directory goes if everything below it goes. -/
theorem at?_removeEmptied {dirs : List RepoPath} {d : Disk Id}
    (hchain : dirs.Pairwise (fun a b => b ∈ a.ancestors)) (hdirs : ∀ a ∈ dirs, d.at? a = some .dir) (x : RepoPath) :
    ((x ∈ dirs ∧ ∀ q, d.at? q ≠ none → x ∈ q.ancestors → q ∈ dirs) → (removeEmptied dirs d).at? x = none) ∧
      (¬ (x ∈ dirs ∧ ∀ q, d.at? q ≠ none → x ∈ q.ancestors → q ∈ dirs) →
        (removeEmptied dirs d).at? x = d.at? x) := by
  induction dirs generalizing d with
  | nil => exact ⟨fun h => absurd h.1 List.not_mem_nil, fun _ => rfl⟩
  | cons dir dirs ih =>
      obtain ⟨habove, hchain⟩ := List.pairwise_cons.mp hchain
      have hdir := hdirs dir List.mem_cons_self
      cases hr : d.rmdir dir with
      | none =>
          -- the nearest directory stays, and what is below it is below the others too
          obtain ⟨q, hq, hbelow⟩ := rmdir_eq_none hdir hr
          rw [show removeEmptied (dir :: dirs) d = d by rw [removeEmptied, hr]]
          refine ⟨fun h => ?_, fun _ => rfl⟩
          have hx : x ∈ q.ancestors := by
            rcases List.mem_cons.mp h.1 with rfl | hx
            · exact hbelow
            · exact RepoPath.ancestors_trans (habove x hx) hbelow
          rcases List.mem_cons.mp (h.2 q hq hx) with rfl | hqd
          · exact absurd hbelow (RepoPath.not_mem_ancestors_self q)
          · exact absurd (habove q hqd) (RepoPath.not_mem_ancestors_of_mem hbelow)
      | some d' =>
          obtain ⟨hvacant, hat⟩ := rmdir_eq_some hr
          rw [vacant_iff] at hvacant
          have hne : ∀ a ∈ dirs, dir ≠ a := by
            intro a ha he
            subst he
            exact RepoPath.not_mem_ancestors_self dir (habove dir ha)
          have hih := ih (d := d') hchain (fun a ha => by
            rw [hat a, if_neg (hne a ha)]
            exact hdirs a (List.mem_cons_of_mem _ ha))
          rw [show removeEmptied (dir :: dirs) d = removeEmptied dirs d' by rw [removeEmptied, hr]]
          by_cases hxd : dir = x
          · subst hxd
            have hnot : ¬ (dir ∈ dirs ∧ ∀ q, d'.at? q ≠ none → dir ∈ q.ancestors → q ∈ dirs) :=
              fun h => hne dir h.1 rfl
            refine ⟨fun _ => by rw [hih.2 hnot, hat, if_pos rfl], fun h => absurd ⟨List.mem_cons_self, ?_⟩ h⟩
            intro q hq hm
            exact absurd hm (hvacant q hq)
          · have hiff : (x ∈ dirs ∧ ∀ q, d'.at? q ≠ none → x ∈ q.ancestors → q ∈ dirs) ↔
                (x ∈ dir :: dirs ∧ ∀ q, d.at? q ≠ none → x ∈ q.ancestors → q ∈ dir :: dirs) := by
              constructor
              · intro h
                refine ⟨List.mem_cons_of_mem _ h.1, fun q hq hm => ?_⟩
                by_cases hqd : dir = q
                · exact hqd ▸ List.mem_cons_self
                · exact List.mem_cons_of_mem _ (h.2 q (by rw [hat, if_neg hqd]; exact hq) hm)
              · intro h
                refine ⟨(List.mem_cons.mp h.1).resolve_left (Ne.symm hxd), fun q hq hm => ?_⟩
                rw [hat] at hq
                split at hq
                · exact absurd rfl hq
                · rename_i hqd
                  exact (List.mem_cons.mp (h.2 q hq hm)).resolve_left (Ne.symm hqd)
            rw [← hiff]
            refine ⟨hih.1, fun h => ?_⟩
            rw [hih.2 h, hat, if_neg hxd]

/-- Everything that stands below the directory is the path or leads to it. -/
def OnlyHolds (d : Disk Id) (dir p : RepoPath) : Prop :=
  dir ∈ p.ancestors ∧ ∀ q, d.at? q ≠ none → dir ∈ q.ancestors → q = p ∨ q ∈ p.ancestors

/-- Removing a file takes it and the directories that hold nothing else. -/
theorem removePath_spec {d : Disk Id} {p : RepoPath} {entry : FileEntry Id} (h : d.at? p = some (.file entry)) :
    ∃ d', d.removePath p = some d' ∧ d'.at? p = none ∧
      (∀ x, d.OnlyHolds x p → d'.at? x = none) ∧
      (∀ x, x ≠ p → ¬ d.OnlyHolds x p → d'.at? x = d.at? x) := by
  obtain ⟨d₁, hunlink, hat⟩ := unlink_spec h
  have hchain : p.ancestors.reverse.Pairwise (fun a b => b ∈ a.ancestors) :=
    List.pairwise_reverse.mpr p.pairwise_ancestors
  have hne : ∀ a ∈ p.ancestors, p ≠ a := by
    rintro a ha rfl
    exact RepoPath.not_mem_ancestors_self p ha
  have hdirs : ∀ a ∈ p.ancestors.reverse, d₁.at? a = some .dir := by
    intro a ha
    have ha := List.mem_reverse.mp ha
    rw [hat, if_neg (hne a ha)]
    exact dir_of_mem_ancestors (by rw [h]; simp) ha
  have hiff : ∀ x, (x ∈ p.ancestors.reverse ∧ ∀ q, d₁.at? q ≠ none → x ∈ q.ancestors → q ∈ p.ancestors.reverse) ↔
      d.OnlyHolds x p := by
    intro x
    rw [List.mem_reverse]
    constructor
    · intro hx
      refine ⟨hx.1, fun q hq hm => ?_⟩
      by_cases hqp : p = q
      · exact Or.inl hqp.symm
      · exact Or.inr (List.mem_reverse.mp (hx.2 q (by rw [hat, if_neg hqp]; exact hq) hm))
    · intro hx
      refine ⟨hx.1, fun q hq hm => ?_⟩
      rw [hat] at hq
      split at hq
      · exact absurd rfl hq
      · rename_i hqp
        exact List.mem_reverse.mpr ((hx.2 q hq hm).resolve_left (Ne.symm hqp))
  refine ⟨removeEmptied p.ancestors.reverse d₁, ?_, ?_, ?_, ?_⟩
  · unfold removePath
    rw [h]
    simp only
    rw [hunlink]
    rfl
  · rw [(at?_removeEmptied hchain hdirs p).2, hat, if_pos rfl]
    exact fun hx => hne p (List.mem_reverse.mp hx.1) rfl
  · intro x hx
    exact (at?_removeEmptied hchain hdirs x).1 ((hiff x).mpr hx)
  · intro x hxp hx
    rw [(at?_removeEmptied hchain hdirs x).2 (fun h => hx ((hiff x).mp h)), hat, if_neg (Ne.symm hxp)]

/-! ### Placing a file -/

/-- `fs::create_dir_all` of the directory that holds a path. -/
def createDirAll (d : Disk Id) (p : RepoPath) : Option (Disk Id) := p.ancestors.foldlM mkdir d

/-- `place`: the directories above the path, then a complete copy renamed over it. -/
def placeFile (d : Disk Id) (p : RepoPath) (entry : FileEntry Id) : Option (Disk Id) :=
  (d.createDirAll p).bind (fun d => d.rename p entry)

theorem foldlM_mkdir {dirs : List RepoPath} {d : Disk Id} (hchain : dirs.Pairwise (fun a b => a ∈ b.ancestors))
    (hvalid : ∀ a ∈ dirs, a.Valid) (hfree : ∀ a ∈ dirs, d.file a = none)
    (habove : ∀ a ∈ dirs, ∀ b ∈ a.ancestors, b ∈ dirs ∨ d.at? b = some .dir) :
    ∃ d', dirs.foldlM mkdir d = some d' ∧ ∀ q, d'.at? q = if q ∈ dirs then some .dir else d.at? q := by
  induction dirs generalizing d with
  | nil => exact ⟨d, rfl, fun q => by rw [if_neg List.not_mem_nil]⟩
  | cons dir dirs ih =>
      obtain ⟨hbelow, hchain⟩ := List.pairwise_cons.mp hchain
      have hdirs : ∀ a ∈ dir.ancestors, d.at? a = some .dir := by
        intro a ha
        rcases habove dir List.mem_cons_self a ha with hm | hm
        · rcases List.mem_cons.mp hm with rfl | hm
          · exact absurd ha (RepoPath.not_mem_ancestors_self a)
          · exact absurd (hbelow a hm) (RepoPath.not_mem_ancestors_of_mem ha)
        · exact hm
      obtain ⟨d₁, hd₁, hat₁⟩ := mkdir_spec (hvalid dir List.mem_cons_self) (hfree dir List.mem_cons_self) hdirs
      obtain ⟨d', hd', hat'⟩ := ih (d := d₁) hchain (fun a ha => hvalid a (List.mem_cons_of_mem _ ha))
        (fun a ha => by
          by_cases he : dir = a
          · exact file_eq_none_of_dir (by rw [hat₁, if_pos he])
          · rw [file_eq_of_at? (show d₁.at? a = d.at? a by rw [hat₁, if_neg he])]
            exact hfree a (List.mem_cons_of_mem _ ha))
        (fun a ha b hb => by
          by_cases he : dir = b
          · exact Or.inr (by rw [hat₁, if_pos he])
          · rw [hat₁, if_neg he]
            rcases habove a (List.mem_cons_of_mem _ ha) b hb with hm | hm
            · exact Or.inl ((List.mem_cons.mp hm).resolve_left (Ne.symm he))
            · exact Or.inr hm)
      refine ⟨d', ?_, fun q => ?_⟩
      · rw [List.foldlM_cons, hd₁]
        exact hd'
      · rw [hat', hat₁]
        by_cases hq : dir = q
        · subst hq
          simp
        · simp [hq, Ne.symm hq]

/-- No file stands above the path, and no directory at it. -/
def Clear (d : Disk Id) (p : RepoPath) : Prop := (∀ a ∈ p.ancestors, d.file a = none) ∧ d.at? p ≠ some .dir

/-- Placing a file adds it and the directories above it, and leaves the rest alone. -/
theorem placeFile_spec {d : Disk Id} {p : RepoPath} (entry : FileEntry Id) (hvalid : p.Valid) (h : d.Clear p) :
    ∃ d', d.placeFile p entry = some d' ∧
      ∀ q, d'.at? q = if p = q then some (.file entry) else if q ∈ p.ancestors then some .dir else d.at? q := by
  obtain ⟨d₁, hd₁, hat₁⟩ := foldlM_mkdir (d := d) p.pairwise_ancestors
    (fun a ha => hvalid.of_mem_ancestors ha) h.1
    (fun a ha b hb => Or.inl (RepoPath.ancestors_trans hb ha))
  have hself : d₁.at? p = d.at? p := by rw [hat₁, if_neg (RepoPath.not_mem_ancestors_self p)]
  obtain ⟨d', hd', hat'⟩ := rename_spec (d := d₁) entry hvalid (by rw [hself]; exact h.2)
    (fun a ha => by rw [hat₁, if_pos ha])
  refine ⟨d', ?_, fun q => ?_⟩
  · unfold placeFile createDirAll
    rw [hd₁]
    exact hd'
  · rw [hat', hat₁]

end Disk

end Javelin
