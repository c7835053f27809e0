import Javelin.ExactDisks
import Javelin.Resumption

/-! # Refresh as a three-way update

`merged` takes the head's entry where the head changed a path and the directory's own entry elsewhere.  A directory
without empty directories is refused only if the two sides changed a path to different entries, if what they would
give together is not prefix-free, or if they renamed a path to different places (`pending_of_merged`).  Otherwise
the refresh leaves just the merged files (`exact_perform`).

`refresh_three_way`: both together. -/

namespace Javelin

open KeyedList

namespace Refresh
variable {Id : Type} [DecidableEq Id] {S T D : Manifest Id} {d : Disk Id}

/-- The head's entry where the head changed a path, and the directory's elsewhere. -/
def merged (S D T : Manifest Id) (p : RepoPath) : Option (FileEntry Id) :=
  if S.entries.get? p ≠ T.entries.get? p then T.entries.get? p else D.entries.get? p

/-- No file stands above another one. -/
def PrefixFree (files : RepoPath → Option (FileEntry Id)) : Prop :=
  ∀ p, files p ≠ none → ∀ a ∈ p.ancestors, files a = none

/-! ### What is not refused -/

/-- Where the two sides agree and their files fit together, nothing on disk is in the way. -/
theorem pending_of_merged (hd : d.Exact D.entries.get?) (hagreed : ∀ p, ¬ Disagrees S D T p)
    (hfree : PrefixFree (merged S D T)) : Pending S T d := by
  have hD : ∀ p, d.scan.entries.get? p = D.entries.get? p := fun p => (Disk.get?_scan d p).trans (hd.file p)
  have hsame : ∀ p, Disagrees S d.scan T p ↔ Disagrees S D T p := by
    intro p
    unfold Disagrees
    rw [hD]
  have hhead : ∀ p, S.entries.get? p ≠ T.entries.get? p → merged S D T p = T.entries.get? p :=
    fun p h => if_pos h
  have hlocal : ∀ p, S.entries.get? p ≠ D.entries.get? p → merged S D T p = D.entries.get? p := by
    intro p hne
    unfold merged
    split
    · rename_i hchanged
      by_contra hother
      exact hagreed p ⟨hchanged, hne, Ne.symm hother⟩
    · rfl
  refine ⟨fun p h => hagreed p ((hsame p).mp h), ?_, ?_⟩
  · rintro p ⟨hmine, hsome, a, ha, htheirs, hfile⟩
    rw [hD] at hmine hsome
    have hnone := hfree p (by rw [hlocal p hmine]; exact hsome) a ha
    rw [hhead a htheirs] at hnone
    exact hfile hnone
  · intro p entry hm
    obtain ⟨⟨hne, hentry⟩, _⟩ := mem_remaining.mp hm
    have hput : merged S D T p ≠ none := by
      rw [hhead p hne, ← hentry]
      exact Option.some_ne_none entry
    -- a file of the directory that the merged files have no room for is removed
    have hremoved : ∀ q, D.entries.get? q ≠ none → merged S D T q = none → (q, none) ∈ remaining S T d.scan := by
      intro q hq hnone
      have hchanged : S.entries.get? q ≠ T.entries.get? q := by
        intro hsame
        unfold merged at hnone
        rw [if_neg (not_not.mpr hsame)] at hnone
        exact hq hnone
      have hgone : T.entries.get? q = none := (hhead q hchanged).symm.trans hnone
      refine mem_remaining.mpr ⟨⟨hchanged, hgone.symm⟩, ?_⟩
      rw [hD]
      by_contra hother
      rw [hlocal q (Ne.symm hother)] at hnone
      exact hq hnone
    have hbelow : ∀ q, D.entries.get? q ≠ none → p ∈ q.ancestors → (q, none) ∈ remaining S T d.scan := by
      intro q hq hpq
      apply hremoved q hq
      by_contra hsome
      exact hput (hfree q hsome p hpq)
    by_cases hfreed : ∃ a ∈ p.ancestors, (a, none) ∈ remaining S T d.scan
    · exact Or.inl hfreed
    · refine Or.inr ⟨fun a ha => ?_, fun hdir => ⟨fun q e hq hpq => ?_, fun q hq hup => ?_⟩⟩
      · rw [hd.file a]
        by_contra hfile
        exact hfreed ⟨a, ha, hremoved a hfile (hfree p hput a ha)⟩
      · refine hbelow q ?_ hpq
        rw [← hd.file q, Disk.file_eq_some.mpr hq]
        exact Option.some_ne_none e
      · obtain ⟨g, hg, hqg⟩ := hd.dir q hq
        have hpg : p ∈ g.ancestors := by
          rcases hup with rfl | hup
          · exact hqg
          · exact RepoPath.ancestors_trans hup hqg
        exact ⟨g, hbelow g hg hpg, hqg⟩

/-! ### What is left -/

omit [DecidableEq Id] in
/-- Every write keeps the directory free of empty directories. -/
theorem exact_write {d' : Disk Id} {f : RepoPath → Option (FileEntry Id)} (hd : d.Exact f) {w : Write Id}
    (hw : write d w = some d') (hfile : ∀ p, d'.file p = if p = w.1 then w.2 else d.file p)
    (hremoved : w.2 = none → f w.1 ≠ none) : d'.Exact (fun p => if p = w.1 then w.2 else f p) := by
  obtain ⟨x, change⟩ := w
  cases change with
  | none =>
      have hexact := hd.removePath (hremoved rfl) hw
      refine ⟨fun p => by rw [hfile, hd.file], fun a ha => ?_⟩
      obtain ⟨q, hq, hm⟩ := hexact.dir a ha
      refine ⟨q, ?_, hm⟩
      rw [← hd.file q, ← hfile q, hexact.file q]
      exact hq
  | some entry => exact hd.placeFile hw hfile

/-- A refresh that is not refused leaves no empty directory. -/
theorem exact_perform (h : Pending S T d) (hd : d.Exact d.file) (k : ℕ) :
    ∃ half, perform d ((writesOf (remaining S T d.scan)).take k) = some half ∧ half.Exact half.file := by
  induction k generalizing d with
  | zero => exact ⟨d, rfl, hd⟩
  | succ k ih =>
      cases hw : writesOf (remaining S T d.scan) with
      | nil => exact ⟨d, rfl, hd⟩
      | cons w ws =>
          obtain ⟨d₁, hd₁, hp₁, hws, hfile₁⟩ := h.write hw
          have hm := mem_remaining.mp (mem_writesOf.mp (hw ▸ List.mem_cons_self))
          have hexact := exact_write hd hd₁ hfile₁ (fun hnone => by
            rw [← Disk.get?_scan, hm.2]
            intro hS
            exact hm.1.1 (by rw [hS, ← hm.1.2, hnone]))
          have hown : (fun p => if p = w.1 then w.2 else d.file p) = d₁.file := funext (fun p => (hfile₁ p).symm)
          rw [hown] at hexact
          obtain ⟨half, hhalf, hlast⟩ := ih hp₁ hexact
          rw [hws] at hhalf
          refine ⟨half, ?_, hlast⟩
          rw [List.take_succ_cons]
          show List.foldlM _ _ _ = _
          rw [List.foldlM_cons, hd₁]
          exact hhalf

/-- A refresh that is not refused leaves the merged files, and only them. -/
theorem refresh_merged (hd : d.Exact D.entries.get?) {plan : Plan Id} (h : preview S T d = .ok plan) :
    ∃ final, refresh S T d = .ok (some final) ∧ final.Exact (merged S D T) := by
  obtain ⟨hp, _⟩ := preview_eq_ok.mp ⟨plan, h⟩
  have hwrites := writes_of_preview h
  obtain ⟨final, hfinal, _, _, hfile⟩ := hp.perform plan.writes.length
  have hown : d.Exact d.file := by
    rw [funext hd.file]
    exact hd
  obtain ⟨final', hfinal', hexact⟩ := exact_perform hp hown plan.writes.length
  rw [hfinal] at hfinal'
  cases hfinal'
  rw [← hwrites, List.take_length] at hfinal hfile
  refine ⟨final, by rw [refresh_of_preview h, hfinal], ?_⟩
  have hsame : final.file = merged S D T := by
    funext p
    rw [hfile]
    unfold merged
    by_cases hchanged : S.entries.get? p ≠ T.entries.get? p
    · rw [if_pos hchanged]
      split
      · rfl
      · rename_i hno
        -- both sides made the same change
        rw [hd.file p]
        by_contra hother
        have hlocal : D.entries.get? p ≠ S.entries.get? p := by
          intro heq
          apply hno
          rw [hwrites, List.mem_map]
          refine ⟨(p, T.entries.get? p), mem_writesOf.mpr (mem_remaining.mpr ⟨⟨hchanged, rfl⟩, ?_⟩), rfl⟩
          rw [Disk.get?_scan, hd.file p, heq]
        refine hp.agreed p ⟨hchanged, ?_, ?_⟩
        · rw [Disk.get?_scan, hd.file p]
          exact Ne.symm hlocal
        · rw [Disk.get?_scan, hd.file p]
          exact hother
    · rw [if_neg hchanged, if_neg, hd.file p]
      intro hm
      obtain ⟨e, he, rfl⟩ := List.mem_map.mp hm
      rw [hwrites] at he
      exact hchanged (mem_remaining.mp (mem_writesOf.mp he)).1.1
  rw [← hsame]
  exact hexact

/-- A refresh of a directory without empty directories gives the merged snapshot, with every local edit in it, or it
writes nothing and there is a reason: a path that both sides changed to different entries, merged files that are not
prefix-free, or a path that both sides renamed to different places. -/
theorem refresh_three_way (S T : Manifest Id) {D : Manifest Id} {d : Disk Id} (hd : d.Exact D.entries.get?) :
    (∃ final, ∃ M : Manifest Id, refresh S T d = .ok (some final) ∧ final.Exact M.entries.get? ∧
      (∀ p, M.entries.get? p =
        if S.entries.get? p ≠ T.entries.get? p then T.entries.get? p else D.entries.get? p) ∧
      ∀ p, D.entries.get? p ≠ S.entries.get? p → M.entries.get? p = D.entries.get? p) ∨
    ∃ paths, refresh S T d = .error paths ∧
      ((∃ p, Disagrees S D T p) ∨ ¬ PrefixFree (merged S D T) ∨ ∃ p, Merge.Diverged S D T p) := by
  cases h : preview S T d with
  | ok plan =>
      obtain ⟨final, hfinal, hexact⟩ := refresh_merged hd h
      have hM : ∀ p, final.scan.entries.get? p = merged S D T p :=
        fun p => (Disk.get?_scan final p).trans (hexact.file p)
      refine Or.inl ⟨final, final.scan, hfinal, ?_, hM, fun p hp => ?_⟩
      · rw [funext hM]
        exact hexact
      · rw [hM]
        unfold merged
        split
        · rename_i hchanged
          by_contra hother
          have hagreed := (preview_eq_ok.mp ⟨plan, h⟩).1.agreed p
          apply hagreed
          unfold Disagrees
          rw [Disk.get?_scan, hd.file p]
          exact ⟨hchanged, Ne.symm hp, Ne.symm hother⟩
        · rfl
  | error paths =>
      refine Or.inr ⟨paths, ?_, ?_⟩
      · unfold refresh
        rw [h]
        rfl
      · by_contra hno
        obtain ⟨hagreed, hfree, hundiverged⟩ : (∀ p, ¬ Disagrees S D T p) ∧ PrefixFree (merged S D T) ∧
            ∀ p, ¬ Merge.Diverged S D T p := by
          simp only [not_or, not_exists, not_not] at hno
          exact hno
        have hscan : d.scan = D :=
          Manifest.flat_injective (funext fun p => (Disk.get?_scan d ⟨p⟩).trans (hd.file ⟨p⟩))
        obtain ⟨plan, hplan⟩ := preview_eq_ok.mpr ⟨pending_of_merged hd hagreed hfree, by
          rw [hscan]
          exact hundiverged⟩
        rw [h] at hplan
        cases hplan

/-! ### A renamed file beside a new one -/

/-- The head's rename and the directory's own file both stay. -/
theorem refresh_three_way_copied : ∃ final : Disk ℕ, refresh syncedA headB copiedC = .ok (some final) ∧
    final.file ⟨[nameA]⟩ = none ∧ final.file ⟨[nameB]⟩ = some (.regular 1 false) ∧
      final.file ⟨[nameC]⟩ = some (.regular 1 false) := by
  have hd : copiedC.Exact copiedC.scan.entries.get? := by
    have hfiles : ∀ e ∈ copiedC.found.toList, e.2 = .file (.regular 1 false) := by decide +kernel
    refine ⟨fun p => (Disk.get?_scan copiedC p).symm, fun a ha => ?_⟩
    cases hfiles _ (SortedMap.get?_eq_some.mp ha)
  rcases refresh_three_way syncedA headB hd with ⟨final, M, hfinal, hexact, hM, _⟩ | ⟨paths, herror, _⟩
  · refine ⟨final, hfinal, ?_, ?_, ?_⟩
    · rw [hexact.file, hM]
      decide +kernel
    · rw [hexact.file, hM]
      decide +kernel
    · rw [hexact.file, hM]
      decide +kernel
  · have hnone : (refresh syncedA headB copiedC).toBool = true := by decide +kernel
    rw [herror] at hnone
    cases hnone

end Refresh

end Javelin
