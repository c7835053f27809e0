import Javelin.Directories

/-! # Exact directories

A directory is exact for some files (`Exact`) if it holds them and nothing else: every directory in it leads to one
of them.  Removing a file with the parents that it leaves empty keeps a directory exact (`exact_removePath`), and so
does placing one with the directories above it (`Exact.placeFile`). -/

namespace Javelin

open KeyedList

namespace Disk
variable {Id : Type} {d : Disk Id} {f : RepoPath → Option (FileEntry Id)}

/-- Just these files, and no directory that leads to none of them. -/
structure Exact (d : Disk Id) (f : RepoPath → Option (FileEntry Id)) : Prop where
  file : ∀ p, d.file p = f p
  dir : ∀ a, d.at? a = some .dir → ∃ q, f q ≠ none ∧ a ∈ q.ancestors

theorem at?_ne_none_of_file {p : RepoPath} (h : d.file p ≠ none) : d.at? p ≠ none := by
  intro hnone
  exact h (file_eq_none_of_at? hnone)

theorem Exact.dir_iff (h : d.Exact f) {a : RepoPath} :
    d.at? a = some .dir ↔ ∃ q, f q ≠ none ∧ a ∈ q.ancestors := by
  refine ⟨h.dir a, fun ⟨q, hq, ha⟩ => ?_⟩
  rw [← h.file q] at hq
  exact dir_of_mem_ancestors (at?_ne_none_of_file hq) ha

theorem at?_removeEmptied_or (dirs : List RepoPath) (d : Disk Id) (x : RepoPath) :
    (removeEmptied dirs d).at? x = d.at? x ∨ (removeEmptied dirs d).at? x = none := by
  induction dirs generalizing d with
  | nil => exact Or.inl rfl
  | cons dir dirs ih =>
      unfold removeEmptied
      cases hr : d.rmdir dir with
      | none => exact Or.inl rfl
      | some d' =>
          have hat := (rmdir_eq_some hr).2 x
          by_cases hx : dir = x
          · rw [if_pos hx] at hat
            refine Or.inr ((ih d').elim (fun h => h.trans hat) id)
          · rw [if_neg hx] at hat
            exact (ih d').imp_left (fun h => h.trans hat)

theorem dir_of_rmdir {d d' : Disk Id} {p : RepoPath} (h : d.rmdir p = some d') : d.at? p = some .dir := by
  unfold rmdir at h
  split at h
  · rename_i hp
    exact hp.1
  · cases h

/-- The files determine a directory that is exact for them. -/
theorem Exact.at?_eq {d' : Disk Id} (h : d.Exact f) (h' : d'.Exact f) (p : RepoPath) : d.at? p = d'.at? p := by
  have hfile : ∀ entry, d.at? p = some (.file entry) ↔ d'.at? p = some (.file entry) := by
    intro entry
    rw [← file_eq_some, ← file_eq_some, h.file, h'.file]
  have hdir : d.at? p = some .dir ↔ d'.at? p = some .dir := h.dir_iff.trans h'.dir_iff.symm
  apply Option.ext
  rintro (entry | _)
  · exact hfile entry
  · exact hdir

/-- Taking away a file, and the directories that it leaves empty, leaves the other files. -/
theorem exact_removePath (h : d.Exact f) {p : RepoPath} (hp : f p ≠ none) : ∃ d₁, d.unlink p = some d₁ ∧
    (removeEmptied p.ancestors.reverse d₁).Exact (fun q => if p = q then none else f q) ∧
    (∀ x, (removeEmptied p.ancestors.reverse d₁).at? x = d.at? x ∨
      (removeEmptied p.ancestors.reverse d₁).at? x = none) ∧
    ∀ a, d₁.at? a = some .dir ↔ d.at? a = some .dir := by
  obtain ⟨entry, hentry⟩ := Option.ne_none_iff_exists'.mp hp
  have hat : d.at? p = some (.file entry) := file_eq_some.mp ((h.file p).trans hentry)
  obtain ⟨d₁, hunlink, hat₁⟩ := unlink_spec hat
  obtain ⟨d', hremove, hself, hgone, hkept⟩ := removePath_spec hat
  have heq : d' = removeEmptied p.ancestors.reverse d₁ := by
    unfold removePath at hremove
    rw [hat] at hremove
    simp only [hunlink, Option.map_some, Option.some.injEq] at hremove
    exact hremove.symm
  refine ⟨d₁, hunlink, ?_⟩
  rw [← heq]
  refine ⟨⟨fun q => ?_, fun a ha => ?_⟩, fun x => ?_, fun a => ?_⟩
  · by_cases hq : p = q
    · rw [if_pos hq, file_eq_none_of_at? (hq ▸ hself)]
    · rw [if_neg hq, ← h.file q]
      by_cases hover : d.OnlyHolds q p
      · have hdir : d.at? q = some .dir := dir_of_mem_ancestors (by rw [hat]; simp) hover.1
        rw [file_eq_none_of_at? (hgone q hover), file_eq_none_of_dir hdir]
      · exact file_eq_of_at? (hkept q (Ne.symm hq) hover)
  · -- a directory that stays holds something that stays
    have hap : a ≠ p := by
      rintro rfl
      rw [hself] at ha
      cases ha
    have hover : ¬ d.OnlyHolds a p := fun hover => by
      rw [hgone a hover] at ha
      cases ha
    rw [hkept a hap hover] at ha
    by_cases habove : a ∈ p.ancestors
    · have hother : ∃ q, d.at? q ≠ none ∧ a ∈ q.ancestors ∧ q ≠ p ∧ q ∉ p.ancestors := by
        by_contra hno
        exact hover ⟨habove, fun q hq hm => by
          by_contra hqp
          exact hno ⟨q, hq, hm, fun he => hqp (Or.inl he), fun he => hqp (Or.inr he)⟩⟩
      obtain ⟨q, hq, hm, hqp, hqa⟩ := hother
      cases hfound : d.at? q with
      | none => exact absurd hfound hq
      | some found =>
          cases found with
          | file e =>
              refine ⟨q, ?_, hm⟩
              rw [if_neg (Ne.symm hqp), ← h.file q, file_eq_some.mpr hfound]
              exact Option.some_ne_none e
          | dir =>
              obtain ⟨q', hq', hm'⟩ := h.dir q hfound
              refine ⟨q', ?_, RepoPath.ancestors_trans hm hm'⟩
              rw [if_neg]
              · exact hq'
              · rintro rfl
                exact hqa hm'
    · obtain ⟨q, hq, hm⟩ := h.dir a ha
      refine ⟨q, ?_, hm⟩
      rw [if_neg]
      · exact hq
      · rintro rfl
        exact habove hm
  · by_cases hx : x = p
    · exact Or.inr (hx ▸ hself)
    · by_cases hover : d.OnlyHolds x p
      · exact Or.inr (hgone x hover)
      · exact Or.inl (hkept x hx hover)
  · rw [hat₁]
    by_cases ha : p = a
    · rw [if_pos ha, ← ha, hat]
      simp
    · rw [if_neg ha]

theorem Exact.removePath (h : d.Exact f) {p : RepoPath} (hp : f p ≠ none) {d' : Disk Id}
    (hremove : d.removePath p = some d') : d'.Exact (fun q => if p = q then none else f q) := by
  obtain ⟨entry, hentry⟩ := Option.ne_none_iff_exists'.mp hp
  obtain ⟨d₁, hunlink, hexact, _⟩ := exact_removePath h hp
  unfold Disk.removePath at hremove
  rw [file_eq_some.mp ((h.file p).trans hentry)] at hremove
  simp only [hunlink, Option.map_some, Option.some.injEq] at hremove
  rw [← hremove]
  exact hexact

/-! ### Placing -/

theorem dir_of_mkdir {d' : Disk Id} {p a : RepoPath} (h : d.mkdir p = some d') (ha : d'.at? a = some .dir) :
    p = a ∨ d.at? a = some .dir := by
  unfold mkdir at h
  split at h
  · cases h
    exact Or.inr ha
  · split at h
    · cases h
      have hat : (d.found.insert p .dir).get? a = some .dir := ha
      rw [SortedMap.get?_insert] at hat
      split at hat
      · rename_i he
        exact Or.inl he
      · exact Or.inr hat
    · cases h

theorem dir_of_foldlM_mkdir {dirs : List RepoPath} {d d' : Disk Id} {a : RepoPath}
    (h : dirs.foldlM mkdir d = some d') (ha : d'.at? a = some .dir) : a ∈ dirs ∨ d.at? a = some .dir := by
  induction dirs generalizing d with
  | nil =>
      cases h
      exact Or.inr ha
  | cons dir dirs ih =>
      rw [List.foldlM_cons] at h
      obtain ⟨d₁, hd₁, hrest⟩ := Option.bind_eq_some_iff.mp h
      rcases ih hrest with hm | hd
      · exact Or.inl (List.mem_cons_of_mem _ hm)
      · rcases dir_of_mkdir hd₁ hd with rfl | hd
        · exact Or.inl List.mem_cons_self
        · exact Or.inr hd

/-- Placing a file creates no directory but those above it. -/
theorem dir_of_placeFile {d' : Disk Id} {p a : RepoPath} {entry : FileEntry Id}
    (h : d.placeFile p entry = some d') (ha : d'.at? a = some .dir) : a ∈ p.ancestors ∨ d.at? a = some .dir := by
  obtain ⟨d₁, hd₁, hrename⟩ := Option.bind_eq_some_iff.mp h
  refine dir_of_foldlM_mkdir hd₁ ?_
  unfold rename at hrename
  split at hrename
  · cases hrename
    have hat : (d₁.found.insert p (.file entry)).get? a = some .dir := ha
    rw [SortedMap.get?_insert] at hat
    split at hat
    · cases hat
    · exact hat
  · cases hrename

theorem Exact.placeFile (h : d.Exact f) {p : RepoPath} {entry : FileEntry Id} {d' : Disk Id}
    (hplace : d.placeFile p entry = some d')
    (hfile : ∀ q, d'.file q = if q = p then some entry else d.file q) :
    d'.Exact (fun q => if q = p then some entry else f q) := by
  refine ⟨fun q => by rw [hfile, h.file], fun a ha => ?_⟩
  rcases dir_of_placeFile hplace ha with hm | hdir
  · exact ⟨p, by simp, hm⟩
  · obtain ⟨q, hq, hm⟩ := h.dir a hdir
    refine ⟨q, ?_, hm⟩
    split
    · exact Option.some_ne_none entry
    · exact hq

end Disk

end Javelin
