import Javelin.MergeSymmetry

/-! # What a merge decides for each path

Without choices and aliases a path is in conflict exactly if both sides changed it and their
changes do not merge (`Edited`), if it is one of two destinations of a renamed path (`Diverged`),
or if it remains together with a path above or below it (`Collides`); every other path has the
three-way value (`merge_keeps`).  A merge fails only where the caller's loader does or a limit is
passed (`Faults`), and merging an unchanged side loads nothing (`merge_one_sided`). -/

namespace Javelin

open KeyedList

/-! ### Exact renames -/

namespace Manifest
variable {Id : Type} [DecidableEq Id] {self later : Manifest Id}

/-- `later` moves the entry of `source` to `dest`: it is the only entry of its kind that is removed,
and the only one that is added. -/
structure Renamed (earlier later : Manifest Id) (source dest : RepoPath) (entry : FileEntry Id) : Prop where
  removed : ∀ q, earlier.entries.get? q = some entry ∧ later.entries.get? q = none ↔ q = source
  added : ∀ q, later.entries.get? q = some entry ∧ earlier.entries.get? q = none ↔ q = dest

omit [DecidableEq Id] in
theorem mem_removedIn {p : RepoPath} {entry : FileEntry Id} :
    (p, entry) ∈ self.removedIn later ↔ self.entries.get? p = some entry ∧ later.entries.get? p = none := by
  unfold removedIn
  rw [List.mem_filter, decide_eq_true_eq, SortedMap.get?_eq_some]

omit [DecidableEq Id] in
theorem ascending_removedIn : Ascending Prod.fst (self.removedIn later) :=
  self.entries.ascending.sublist List.filter_sublist

theorem mem_pathsOf {l : List (RepoPath × FileEntry Id)} {p : RepoPath} {entry : FileEntry Id} :
    p ∈ pathsOf l entry ↔ (p, entry) ∈ l := by
  unfold pathsOf
  rw [List.mem_map]
  constructor
  · rintro ⟨⟨q, e⟩, hm, rfl⟩
    obtain ⟨hm, he⟩ := List.mem_filter.mp hm
    have he : e = entry := of_decide_eq_true he
    rw [← he]
    exact hm
  · exact fun hm => ⟨(p, entry), List.mem_filter.mpr ⟨hm, decide_eq_true rfl⟩, rfl⟩

/-- One path only has the entry. -/
theorem pathsOf_eq_singleton {p : RepoPath} {entry : FileEntry Id} :
    pathsOf (self.removedIn later) entry = [p] ↔
      ∀ q, self.entries.get? q = some entry ∧ later.entries.get? q = none ↔ q = p := by
  simp only [← mem_removedIn, ← mem_pathsOf]
  constructor
  · intro h q
    rw [h, List.mem_singleton]
  · intro h
    have hascending : Ascending id (pathsOf (self.removedIn later) entry) :=
      (ascending_removedIn.sublist List.filter_sublist).map (fun _ _ => rfl)
    refine hascending.ext_mem (ascending_singleton p) (fun q => ?_)
    rw [h q, List.mem_singleton]

/-- The rename that one removed entry stands for. -/
def renameOf (removed added : List (RepoPath × FileEntry Id)) (e : RepoPath × FileEntry Id) :
    Option (RepoPath × RepoPath) :=
  match pathsOf removed e.2, pathsOf added e.2 with
  | [source], [destination] => some (source, destination)
  | _, _ => none

theorem renamesTo_eq_some {source dest : RepoPath} :
    (self.renamesTo later).get? source = some dest ↔ ∃ entry, self.Renamed later source dest entry := by
  have hkeys : ∀ e ∈ self.removedIn later, ∀ r : RepoPath × RepoPath,
      renameOf (self.removedIn later) (later.removedIn self) e = some r →
        e.1 = r.1 ∧ pathsOf (self.removedIn later) e.2 = [r.1] ∧
          pathsOf (later.removedIn self) e.2 = [r.2] := by
    intro e he r hr
    unfold renameOf at hr
    split at hr
    · rename_i p q hp hq
      cases hr
      refine ⟨?_, hp, hq⟩
      have hm : e.1 ∈ pathsOf (self.removedIn later) e.2 := mem_pathsOf.mpr he
      rw [hp] at hm
      exact List.mem_singleton.mp hm
    · cases hr
  show (SortedMap.ofList ((self.removedIn later).filterMap
    (renameOf (self.removedIn later) (later.removedIn self)))).get? source = some dest ↔ _
  rw [SortedMap.get?_ofList]
  · rw [List.mem_filterMap]
    constructor
    · rintro ⟨e, he, hr⟩
      obtain ⟨_, hsource, hdest⟩ := hkeys e he _ hr
      exact ⟨e.2, pathsOf_eq_singleton.mp hsource, pathsOf_eq_singleton.mp hdest⟩
    · rintro ⟨entry, hremoved, hadded⟩
      refine ⟨(source, entry), mem_removedIn.mpr ((hremoved source).mpr rfl), ?_⟩
      simp only [renameOf, pathsOf_eq_singleton.mpr hremoved, pathsOf_eq_singleton.mpr hadded]
  · have hremoved : Ascending Prod.fst (self.removedIn later) := ascending_removedIn
    have hascending := hremoved.filterMap (fun e he r hr => (hkeys e he r hr).1.symm)
    exact List.Pairwise.map Prod.fst (fun a b hlt => hlt.ne) hascending

end Manifest

namespace Merge

/-! ### The three-way rule -/

section rule
variable {Id : Type} [DecidableEq Id] {base ours theirs : Manifest Id} {p : RepoPath}

/-- The mode one side changed, and else the one both have. -/
def mergedMode (base ours theirs : Bool) : Bool := if ours = base then theirs else ours

/-- The content one side changed, the one both have, or else the merged lines of three texts. -/
def mergedContent (content : Id → Str) (base ours theirs : Id) (executable : Bool) : Option (Merged Id) :=
  if ours = theirs ∨ theirs = base then some (.retained (.regular ours executable))
  else if ours = base then some (.retained (.regular theirs executable))
  else if 0 ∈ content base ∨ 0 ∈ content ours ∨ 0 ∈ content theirs then none
  else (diff3 (lines (content base)) (lines (content ours)) (lines (content theirs))).map
    (fun ls => .content ls.flatten executable)

/-- The merge of a regular file on all three sides. -/
def mergedFile (content : Id → Str) : Sides Id → Option (Merged Id)
  | ⟨some (.regular b bx), some (.regular o ox), some (.regular t tx)⟩ =>
      mergedContent content b o t (mergedMode bx ox tx)
  | _ => none

/-- Both sides changed the path to different entries, and these do not merge. -/
def Edited (content : Id → Str) (sides : Sides Id) : Prop :=
  sides.ours ≠ sides.base ∧ sides.theirs ≠ sides.base ∧ sides.ours ≠ sides.theirs ∧
    mergedFile content sides = none

/-- The three-way value: the side that changed, the one both have, or else the merged file. -/
def value (content : Id → Str) (sides : Sides Id) : Option (Merged Id) :=
  if sides.theirs = sides.base then sides.ours.map .retained
  else if sides.ours = sides.base then sides.theirs.map .retained
  else if sides.ours = sides.theirs then sides.ours.map .retained
  else mergedFile content sides

/-- One of two different destinations to which the sides renamed one path. -/
def Diverged (base ours theirs : Manifest Id) (p : RepoPath) : Prop :=
  ∃ source o t eo et, base.Renamed ours source o eo ∧ base.Renamed theirs source t et ∧ o ≠ t ∧
    (p = o ∨ p = t)

/-- The path still exists on some side. -/
def Remains (content : Id → Str) (base ours theirs : Manifest Id) (p : RepoPath) : Prop :=
  ((Edited content (sidesOf base ours theirs p) ∨ Diverged base ours theirs p) ∧
      ((sidesOf base ours theirs p).ours ≠ none ∨ (sidesOf base ours theirs p).theirs ≠ none)) ∨
    (¬ Edited content (sidesOf base ours theirs p) ∧ ¬ Diverged base ours theirs p ∧
      value content (sidesOf base ours theirs p) ≠ none)

/-- The path remains, and so does one above or below it. -/
def Collides (content : Id → Str) (base ours theirs : Manifest Id) (p : RepoPath) : Prop :=
  Remains content base ours theirs p ∧
    ∃ q, Remains content base ours theirs q ∧ (q ∈ p.ancestors ∨ p ∈ q.ancestors)

/-- What a path is decided to be agrees with the three-way rule. -/
def Decided (content : Id → Str) (sides : Sides Id) (result : Path Id) : Prop :=
  (Edited content sides ∧ ∃ kind, result = .unresolved kind) ∨
    (¬ Edited content sides ∧ result = ((value content sides).map Path.resolved).getD .deleted)

omit [DecidableEq Id] in
theorem take_eq (entry : Option (FileEntry Id)) :
    take entry = ((entry.map Merged.retained).map Path.resolved).getD .deleted := by
  cases entry <;> rfl

omit [DecidableEq Id] in
theorem not_mem_iff_get?_none {m : Manifest Id} : p ∉ m.entries.keys ↔ m.entries.get? p = none :=
  SortedMap.get?_eq_none.symm

/-- A path that no manifest has does not remain. -/
theorem mem_of_remains {content : Id → Str} (h : Remains content base ours theirs p) :
    p ∈ allPaths base ours theirs := by
  rw [mem_allPaths]
  by_contra hnot
  simp only [not_or, not_mem_iff_get?_none] at hnot
  obtain ⟨hb, ho, ht⟩ := hnot
  have hsides : sidesOf base ours theirs p = ⟨none, none, none⟩ := by
    unfold sidesOf
    rw [hb, ho, ht]
  rcases h with ⟨_, h | h⟩ | ⟨_, _, h⟩
  · rw [hsides] at h
    exact h rfl
  · rw [hsides] at h
    exact h rfl
  · rw [hsides] at h
    exact h rfl

/-- Partners are the two destinations of one renamed path. -/
theorem partnersOf_iff : (partnersOf base ours theirs).get? p ≠ none ↔ Diverged base ours theirs p := by
  have hstep : ∀ (m : SortedMap RepoPath RepoPath) (d : RepoPath × RepoPath × RepoPath) (r : RepoPath),
      (pair m d).get? r ≠ none ↔ m.get? r ≠ none ∨ (r = d.2.1 ∨ r = d.2.2) := by
    intro m d r
    unfold pair
    rw [SortedMap.get?_insert, SortedMap.get?_insert]
    by_cases h₂ : d.2.2 = r
    · simp [h₂]
    · by_cases h₁ : d.2.1 = r
      · simp [h₂, h₁]
      · simp [h₂, h₁, Ne.symm h₁, Ne.symm h₂]
  unfold partnersOf
  rw [renamePartners_eq, get?_foldl_isSome hstep]
  constructor
  · rintro (h | ⟨⟨source, o, t⟩, hm, hor⟩)
    · exact absurd rfl h
    · obtain ⟨ho, ht, hne⟩ := mem_divergent.mp hm
      obtain ⟨eo, ho⟩ := Manifest.renamesTo_eq_some.mp ho
      obtain ⟨et, ht⟩ := Manifest.renamesTo_eq_some.mp ht
      exact ⟨source, o, t, eo, et, ho, ht, Ne.symm hne, hor⟩
  · rintro ⟨source, o, t, eo, et, ho, ht, hne, hor⟩
    have hro := Manifest.renamesTo_eq_some.mpr ⟨eo, ho⟩
    have hrt := Manifest.renamesTo_eq_some.mpr ⟨et, ht⟩
    exact Or.inr ⟨(source, o, t), mem_divergent.mpr ⟨hro, hrt, Ne.symm hne⟩, hor⟩

end rule

/-! ### Deciding one path -/

section deciding
variable {Id σ E : Type} [DecidableEq Id] {load : Id → Caller σ E Str} {content : Id → Str}
  {sides : Sides Id} {result : Path Id} {s s' : σ × Usage}

/-- The loader returns the contents, where it returns anything. -/
def Reads (load : Id → Caller σ E Str) (content : Id → Str) : Prop :=
  ∀ id s bytes s', load id s = .ok (bytes, s') → bytes = content id

omit [DecidableEq Id] in
theorem Reads.boundedLoad (hload : Reads load content) {id : Id} {bytes : Str}
    (h : boundedLoad load id s = .ok (bytes, s')) : bytes = content id := by
  obtain ⟨b, t, hcall, h⟩ := bind_eq_ok.mp h
  obtain ⟨_, t', _, hret⟩ := bind_eq_ok.mp h
  obtain ⟨rfl, _⟩ := pure_eq_ok.mp hret
  exact hload _ _ _ _ (call_eq_ok.mp hcall).1

omit [DecidableEq Id] in
theorem mergeLines_eq_ok {b o t : Str} {r : Option Str}
    (h : (mergeLines b o t : MergeM σ E _) s = .ok (r, s')) : r = (diff3 (lines b) (lines o) (lines t)).map List.flatten := by
  obtain ⟨_, u, _, hret⟩ := bind_eq_ok.mp h
  exact (pure_eq_ok.mp hret).1.symm

/-- A regular file that both sides changed is decided by its merged content. -/
theorem mergeContent_decides (hload : Reads load content) {b o t : Id} {executable : Bool}
    (hot : o ≠ t) (htb : t ≠ b) (hob : o ≠ b)
    (h : mergeContent load b o t executable s = .ok (result, s')) :
    (mergedContent content b o t executable = none ∧ ∃ kind, result = .unresolved kind) ∨
      ∃ m, mergedContent content b o t executable = some m ∧ result = .resolved m := by
  unfold mergedContent
  rw [if_neg (not_or.mpr ⟨hot, htb⟩), if_neg hob]
  obtain ⟨_, t₁, hb, h⟩ := bind_eq_ok.mp h
  obtain ⟨_, t₂, ho, h⟩ := bind_eq_ok.mp h
  obtain ⟨_, t₃, ht, h⟩ := bind_eq_ok.mp h
  rw [hload.boundedLoad hb, hload.boundedLoad ho, hload.boundedLoad ht] at h
  by_cases hnul : 0 ∈ content b ∨ 0 ∈ content o ∨ 0 ∈ content t
  · rw [if_pos hnul] at h ⊢
    exact Or.inl ⟨rfl, _, (pure_eq_ok.mp h).1.symm⟩
  · rw [if_neg hnul] at h ⊢
    obtain ⟨r, t₄, hlines, h⟩ := bind_eq_ok.mp h
    have hr := mergeLines_eq_ok hlines
    cases hd : diff3 (lines (content b)) (lines (content o)) (lines (content t)) with
    | none =>
        rw [hd] at hr
        rw [hr] at h
        exact Or.inl ⟨rfl, _, (pure_eq_ok.mp h).1.symm⟩
    | some ls =>
        rw [hd] at hr
        rw [hr] at h
        exact Or.inr ⟨_, rfl, (pure_eq_ok.mp h).1.symm⟩

theorem mergePath_decides (hload : Reads load content)
    (h : mergePath load sides s = .ok (result, s')) : Decided content sides result := by
  obtain ⟨b, o, t⟩ := sides
  unfold mergePath at h
  simp only at h
  by_cases hfirst : o = t ∨ t = b
  · rw [if_pos hfirst] at h
    obtain ⟨rfl, _⟩ := pure_eq_ok.mp h
    refine Or.inr ⟨?_, ?_⟩
    · rintro ⟨_, htb, hot, _⟩
      exact hfirst.elim hot htb
    · rw [take_eq]
      unfold value
      simp only
      by_cases htb : t = b
      · rw [if_pos htb]
      · have hot := hfirst.resolve_right htb
        rw [if_neg htb]
        by_cases hob : o = b
        · rw [if_pos hob, hot]
        · rw [if_neg hob, if_pos hot]
  · rw [if_neg hfirst] at h
    obtain ⟨hot, htb⟩ := not_or.mp hfirst
    by_cases hob : o = b
    · rw [if_pos hob] at h
      obtain ⟨rfl, _⟩ := pure_eq_ok.mp h
      refine Or.inr ⟨fun hed => hed.1 hob, ?_⟩
      rw [take_eq]
      unfold value
      simp only
      rw [if_neg htb, if_pos hob]
    · rw [if_neg hob] at h
      have hvalue : value content ⟨b, o, t⟩ = mergedFile content ⟨b, o, t⟩ := by
        unfold value
        simp only
        rw [if_neg htb, if_neg hob, if_neg hot]
      -- What is left depends on whether there is a merged file.
      have hedited : mergedFile content ⟨b, o, t⟩ = none → (∃ kind, result = .unresolved kind) →
          Decided content ⟨b, o, t⟩ result := fun hm hk => Or.inl ⟨⟨hob, htb, hot, hm⟩, hk⟩
      have hmerged : ∀ m, mergedFile content ⟨b, o, t⟩ = some m → result = .resolved m →
          Decided content ⟨b, o, t⟩ result := by
        intro m hm hr
        refine Or.inr ⟨?_, ?_⟩
        · rintro ⟨_, _, _, hnone⟩
          rw [hm] at hnone
          cases hnone
        · rw [hvalue, hm, hr]
          rfl
      have hunresolved : ∀ kind, (pure (.unresolved kind) : MergeM σ E (Path Id)) s = .ok (result, s') →
          ∃ kind, result = .unresolved kind := fun kind hk => ⟨kind, (pure_eq_ok.mp hk).1.symm⟩
      cases b with
      | none => exact hedited rfl (hunresolved _ h)
      | some b =>
          cases o with
          | none =>
              cases b <;> cases t <;> exact hedited rfl (hunresolved _ h)
          | some o =>
              cases t with
              | none => cases b <;> cases o <;> exact hedited rfl (hunresolved _ h)
              | some t =>
                  cases b <;> cases o <;> cases t <;> try exact hedited rfl (hunresolved _ h)
                  rename_i b bx o ox t tx
                  simp only at h
                  have hfile : mergedFile content ⟨some (.regular b bx), some (.regular o ox),
                      some (.regular t tx)⟩ = mergedContent content b o t (mergedMode bx ox tx) := rfl
                  by_cases hsame : o = t ∨ t = b
                  · rw [if_pos hsame] at h
                    refine hmerged _ ?_ (pure_eq_ok.mp h).1.symm
                    rw [hfile]
                    exact if_pos hsame
                  · rw [if_neg hsame] at h
                    by_cases hbase : o = b
                    · rw [if_pos hbase] at h
                      refine hmerged _ ?_ (pure_eq_ok.mp h).1.symm
                      rw [hfile]
                      exact (if_neg hsame).trans (if_pos hbase)
                    · rw [if_neg hbase] at h
                      obtain ⟨hne, hne'⟩ := not_or.mp hsame
                      rcases mergeContent_decides hload hne hne' hbase h with ⟨hm, hk⟩ | ⟨m, hm, hr⟩
                      · exact hedited hm hk
                      · exact hmerged m hm hr

end deciding

/-! ### The outcome of decided rows -/

section outcome
variable {Id : Type} [DecidableEq Id] {base ours theirs : Manifest Id} {content : Id → Str}
  {rows : List (Row Id)} {p : RepoPath}

/-- Rows for all paths, decided by the three-way rule and the renames. -/
structure DecidedRows (content : Id → Str) (base ours theirs : Manifest Id) (rows : List (Row Id)) :
    Prop where
  paths : rows.map Row.path = allPaths base ours theirs
  sides : ∀ row ∈ rows, row.sides = sidesOf base ours theirs row.path
  decided : ∀ row ∈ rows, (Diverged base ours theirs row.path ∧ ∃ kind, row.result = .unresolved kind) ∨
    (¬ Diverged base ours theirs row.path ∧ Decided content row.sides row.result)

namespace DecidedRows

/-- Both sides cannot have changed a path that no manifest has. -/
theorem mem_of_edited (h : Edited content (sidesOf base ours theirs p)) :
    p ∈ allPaths base ours theirs := by
  rw [mem_allPaths]
  by_contra hnot
  simp only [not_or, not_mem_iff_get?_none] at hnot
  obtain ⟨_, ho, ht⟩ := hnot
  exact h.2.2.1 (ho.trans ht.symm)

omit [DecidableEq Id] in
theorem mem_of_diverged (h : Diverged base ours theirs p) : p ∈ allPaths base ours theirs := by
  obtain ⟨source, o, t, eo, et, ho, ht, _, rfl | rfl⟩ := h
  · have hadded := ((ho.added p).mpr rfl).1
    exact mem_allPaths.mpr (Or.inr (Or.inl (SortedMap.mem_keys.mpr (by rw [hadded]; rfl))))
  · have hadded := ((ht.added p).mpr rfl).1
    exact mem_allPaths.mpr (Or.inr (Or.inr (SortedMap.mem_keys.mpr (by rw [hadded]; rfl))))

theorem nodup (h : DecidedRows content base ours theirs rows) : (rows.map Row.path).Nodup := by
  rw [h.paths]
  exact SortedMap.keys_nodup _

theorem exists_row (h : DecidedRows content base ours theirs rows) (hp : p ∈ allPaths base ours theirs) :
    ∃ row ∈ rows, row.path = p := List.mem_map.mp (h.paths ▸ hp)

/-- A row is unresolved if it is edited on both sides or diverged, and else it has its value. -/
theorem result (h : DecidedRows content base ours theirs rows) {row : Row Id} (hm : row ∈ rows) :
    ((Edited content row.sides ∨ Diverged base ours theirs row.path) ∧
        ∃ kind, row.result = .unresolved kind) ∨
      (¬ Edited content row.sides ∧ ¬ Diverged base ours theirs row.path ∧
        row.result = ((value content row.sides).map Path.resolved).getD .deleted) := by
  rcases h.decided row hm with ⟨hd, hk⟩ | ⟨hd, ⟨he, hk⟩ | ⟨he, hr⟩⟩
  · exact Or.inl ⟨Or.inr hd, hk⟩
  · exact Or.inl ⟨Or.inl he, hk⟩
  · exact Or.inr ⟨he, hd, hr⟩

theorem present_iff (h : DecidedRows content base ours theirs rows) {row : Row Id} (hm : row ∈ rows) :
    row.present = true ↔ Remains content base ours theirs row.path := by
  unfold Remains
  rw [← h.sides row hm]
  unfold Row.present
  rcases h.result hm with ⟨hor, kind, hr⟩ | ⟨he, hd, hr⟩
  · rw [hr]
    simp only [hor, true_and, Bool.or_eq_true]
    rw [Option.isSome_iff_ne_none, Option.isSome_iff_ne_none]
    refine ⟨Or.inl, ?_⟩
    rintro (hs | ⟨he, hd, _⟩)
    · exact hs
    · exact absurd hor (not_or.mpr ⟨he, hd⟩)
  · rw [hr]
    simp only [he, hd, or_self, false_and, false_or, not_false_eq_true, true_and]
    cases value content row.sides with
    | none => simp
    | some m => simp

theorem mem_present_iff (h : DecidedRows content base ours theirs rows) :
    p ∈ present rows ↔ Remains content base ours theirs p := by
  rw [mem_present]
  constructor
  · rintro ⟨row, hm, hp, rfl⟩
    exact (h.present_iff hm).mp hp
  · intro hr
    obtain ⟨row, hm, rfl⟩ := h.exists_row (mem_of_remains hr)
    exact ⟨row, hm, (h.present_iff hm).mpr hr, rfl⟩

theorem collisions_iff (h : DecidedRows content base ours theirs rows) :
    (collisionsOf (present rows)).get? p ≠ none ↔ Collides content base ours theirs p := by
  rw [collisionsOf_iff]
  simp only [h.mem_present_iff]
  rfl

/-- A row without aliases is in conflict if it is unresolved or collides. -/
theorem outcome (h : DecidedRows content base ours theirs rows) (partners : SortedMap RepoPath RepoPath)
    {row : Row Id} (hm : row ∈ rows) :
    ((Edited content row.sides ∨ Diverged base ours theirs row.path ∨
          Collides content base ours theirs row.path) ∧
        ∃ c, row.outcome partners ⟨collisionsOf (present rows), []⟩ = some (.inl c) ∧ c.path = row.path) ∨
      (¬ (Edited content row.sides ∨ Diverged base ours theirs row.path ∨
          Collides content base ours theirs row.path) ∧
        row.outcome partners ⟨collisionsOf (present rows), []⟩ = (value content row.sides).map Sum.inr) := by
  rcases h.result hm with ⟨hor, kind, hr⟩ | ⟨he, hd, hr⟩
  · refine Or.inl ⟨hor.imp_right Or.inl, ?_⟩
    unfold Row.outcome
    rw [hr]
    cases kind <;> exact ⟨_, rfl, rfl⟩
  · unfold Row.outcome
    rw [hr]
    cases hv : value content row.sides with
    | none =>
        refine Or.inr ⟨?_, rfl⟩
        rintro (h' | h' | hc)
        · exact he h'
        · exact hd h'
        · have hremains := hc.1
          unfold Remains at hremains
          rw [← h.sides row hm, hv] at hremains
          rcases hremains with ⟨hor, _⟩ | ⟨_, _, hne⟩
          · exact not_or.mpr ⟨he, hd⟩ hor
          · exact hne rfl
    | some m =>
        simp only [Option.map_some, Option.getD_some]
        cases hcol : (collisionsOf (present rows)).get? row.path with
        | some other =>
            refine Or.inl ⟨Or.inr (Or.inr (h.collisions_iff.mp ?_)), _, rfl, rfl⟩
            rw [hcol]
            simp
        | none =>
            refine Or.inr ⟨?_, by simp⟩
            rintro (h' | h' | hc)
            · exact he h'
            · exact hd h'
            · exact h.collisions_iff.mpr hc hcol

variable {choices : SortedMap RepoPath Choice} {partners : SortedMap RepoPath RepoPath} {usage : Usage}
  {applied : List RepoPath}

theorem conflict_iff (h : DecidedRows content base ours theirs rows) :
    (∃ c ∈ (outcomeOf choices partners usage rows applied ⟨collisionsOf (present rows), []⟩).conflicts,
        c.path = p) ↔
      Edited content (sidesOf base ours theirs p) ∨ Diverged base ours theirs p ∨
        Collides content base ours theirs p := by
  constructor
  · rintro ⟨c, hc, rfl⟩
    obtain ⟨row, hm, ho⟩ := mem_conflicts.mp hc
    rcases h.outcome partners hm with ⟨hor, c', hc', hp⟩ | ⟨_, hv⟩
    · rw [ho] at hc'
      cases hc'
      rw [hp, ← h.sides row hm]
      exact hor
    · rw [ho] at hv
      cases hval : value content row.sides <;> rw [hval] at hv <;> cases hv
  · intro hor
    have hmem : p ∈ allPaths base ours theirs := by
      rcases hor with he | hd | hc
      · exact mem_of_edited he
      · exact mem_of_diverged hd
      · exact mem_of_remains hc.1
    obtain ⟨row, hm, rfl⟩ := h.exists_row hmem
    rcases h.outcome partners hm with ⟨_, c, hc, hp⟩ | ⟨hnot, _⟩
    · exact ⟨c, mem_conflicts.mpr ⟨row, hm, hc⟩, hp⟩
    · rw [h.sides row hm] at hnot
      exact absurd hor hnot

theorem merged_eq (h : DecidedRows content base ours theirs rows)
    (hnot : ¬ ∃ c ∈ (outcomeOf choices partners usage rows applied
      ⟨collisionsOf (present rows), []⟩).conflicts, c.path = p) :
    (outcomeOf choices partners usage rows applied ⟨collisionsOf (present rows), []⟩).merged.get? p =
      value content (sidesOf base ours theirs p) := by
  rw [h.conflict_iff] at hnot
  refine Option.ext (fun m => ?_)
  rw [merged_iff h.nodup]
  constructor
  · rintro ⟨row, hm, rfl, ho⟩
    rcases h.outcome partners hm with ⟨_, c, hc, _⟩ | ⟨_, hv⟩
    · rw [ho] at hc
      cases hc
    · rw [ho, h.sides row hm] at hv
      cases hval : value content (sidesOf base ours theirs row.path) with
      | none => rw [hval] at hv; cases hv
      | some m' => rw [hval] at hv; cases hv; rfl
  · intro hv
    have hremains : Remains content base ours theirs p := by
      refine Or.inr ⟨fun he => hnot (Or.inl he), fun hd => hnot (Or.inr (Or.inl hd)), ?_⟩
      rw [hv]
      simp
    obtain ⟨row, hm, rfl⟩ := h.exists_row (mem_of_remains hremains)
    refine ⟨row, hm, rfl, ?_⟩
    rcases h.outcome partners hm with ⟨hor, _⟩ | ⟨_, ho⟩
    · rw [h.sides row hm] at hor
      exact absurd hor hnot
    · rw [ho, h.sides row hm, hv]
      rfl

end DecidedRows

end outcome

/-! ### Merging without choices -/

section merging
variable {Id σ E : Type} [DecidableEq Id] {base ours theirs : Manifest Id} {load : Id → Caller σ E Str}
  {content : Id → Str}

omit [DecidableEq Id] in
theorem settle_empty (rows : List (Row Id)) :
    settle SortedMap.empty (fun _ s => .ok ([], s)) 0 rows [] =
      (pure (rows, [], ⟨collisionsOf (present rows), []⟩) : MergeM σ E _) := by
  have hanalyse : analyse (fun _ s => .ok ([], s)) rows =
      (pure ⟨collisionsOf (present rows), []⟩ : MergeM σ E _) := by
    unfold analyse
    by_cases hlt : 1 < (candidates (present rows)).length
    · rw [if_pos hlt]
      rfl
    · rw [if_neg hlt]
  unfold settle
  rw [hanalyse, pure_bind]

/-- A merge without choices: the rows decided on their own, and their collisions. -/
theorem merge_eq (s : σ) : merge base ours theirs load s = (do
    let usage ← admission base ours theirs
    let (rows, s) ← threeWay load base ours theirs (s, usage)
    return (outcomeOf SortedMap.empty (partnersOf base ours theirs) s.2 rows []
      ⟨collisionsOf (present rows), []⟩, s.1)) := by
  unfold merge mergeResolved
  refine bind_congr (fun usage => bind_congr (fun rows => ?_))
  show ((settle SortedMap.empty _ 0 rows.1 []) rows.2 >>= _) = _
  rw [settle_empty]
  rfl

theorem decidedRows_of_threeWay (hload : Reads load content) {s s' : σ × Usage} {rows : List (Row Id)}
    (h : threeWay load base ours theirs s = .ok (rows, s')) : DecidedRows content base ours theirs rows := by
  obtain ⟨hpaths, hrows⟩ := of_threeWay h
  refine ⟨hpaths, fun row hm => (hrows row hm).1, fun row hm => ?_⟩
  rcases (hrows row hm).2 with ⟨hr, hp⟩ | ⟨hp, t, t', hr⟩
  · exact Or.inl ⟨partnersOf_iff.mp hp, _, hr⟩
  · exact Or.inr ⟨fun hd => partnersOf_iff.mpr hd hp, mergePath_decides hload hr⟩

/-! ### Unchanged sides -/

/-- All entries of a manifest. -/
def retained (m : Manifest Id) : SortedMap RepoPath (Merged Id) :=
  ⟨m.entries.toList.map (fun e => (e.1, .retained e.2)), m.entries.ascending.map (fun _ _ => rfl)⟩

omit [DecidableEq Id] in
theorem get?_retained (m : Manifest Id) (p : RepoPath) :
    (retained m).get? p = (m.entries.get? p).map .retained := by
  unfold retained SortedMap.get?
  rw [lookup_map (fun e => Iff.rfl), Option.map_map, Option.map_map]
  rfl

/-- A manifest that every path can be taken from is the outcome. -/
theorem merge_of_take {m : Manifest Id}
    (hpath : ∀ p, mergePath load (sidesOf base ours theirs p) = pure (take (m.entries.get? p)))
    (hrule : ∀ p, ¬ Edited (fun _ => []) (sidesOf base ours theirs p) ∧
      value (fun _ => []) (sidesOf base ours theirs p) = (m.entries.get? p).map .retained)
    (hpartners : ∀ p, ¬ Diverged base ours theirs p) {usage : Usage}
    (husage : admission base ours theirs = (.ok usage : Except (MergeError E) Usage)) (s : σ) :
    merge base ours theirs load s = .ok (⟨retained m, [], [], usage⟩, s) := by
  let rows : List (Row Id) := (allPaths base ours theirs).map
    (fun p => ⟨p, take (m.entries.get? p), sidesOf base ours theirs p⟩)
  have hpartner : ∀ row : Row Id, row.withPartner (partnersOf base ours theirs) = row := by
    intro row
    have hnone : (partnersOf base ours theirs).get? row.path = none := by
      by_contra h
      exact hpartners row.path (partnersOf_iff.mp h)
    unfold Row.withPartner
    rw [hnone]
  have hthree : threeWay load base ours theirs (s, usage) = .ok (rows, (s, usage)) := by
    have hrow : mergeRow load base ours theirs =
        (fun p => pure ⟨p, take (m.entries.get? p), sidesOf base ours theirs p⟩ : RepoPath → MergeM σ E _) := by
      funext p
      unfold mergeRow
      simp only [hpath, pure_bind]
    unfold threeWay
    rw [hrow, List.mapM_pure, pure_bind]
    have hmap : rows.map (Row.withPartner (partnersOf base ours theirs)) = rows :=
      (List.map_congr_left (fun row _ => hpartner row)).trans (List.map_id rows)
    show Except.ok _ = _
    rw [hmap]
  have hrows : DecidedRows (fun _ => []) base ours theirs rows := by
    refine ⟨?_, ?_, ?_⟩
    · rw [List.map_map]
      exact List.map_id _
    · intro row hm
      obtain ⟨p, _, rfl⟩ := List.mem_map.mp hm
      rfl
    · intro row hm
      obtain ⟨p, _, rfl⟩ := List.mem_map.mp hm
      refine Or.inr ⟨hpartners p, Or.inr ⟨(hrule p).1, ?_⟩⟩
      rw [take_eq]
      exact congrArg (fun v : Option (Merged Id) => (v.map Path.resolved).getD .deleted) (hrule p).2.symm
  have hremains : ∀ p, Remains (fun _ => []) base ours theirs p → p ∈ m.entries.keys := by
    rintro p (⟨he | hd, _⟩ | ⟨_, _, hv⟩)
    · exact absurd he (hrule p).1
    · exact absurd hd (hpartners p)
    · rw [(hrule p).2] at hv
      rw [SortedMap.mem_keys]
      cases hget : m.entries.get? p with
      | none => simp [hget] at hv
      | some e => rfl
  have hconflict : ∀ p, ¬ (Edited (fun _ => []) (sidesOf base ours theirs p) ∨
      Diverged base ours theirs p ∨ Collides (fun _ => []) base ours theirs p) := by
    rintro p (he | hd | ⟨hp, q, hq, hanc | hanc⟩)
    · exact (hrule p).1 he
    · exact hpartners p hd
    · exact m.disjoint p (hremains p hp) q hanc (hremains q hq)
    · exact m.disjoint q (hremains q hq) p hanc (hremains p hp)
  rw [merge_eq, husage]
  show (threeWay load base ours theirs (s, usage) >>= _) = _
  rw [hthree]
  show Except.ok _ = _
  congr 2
  have hnone : ∀ p, ¬ ∃ c ∈ (outcomeOf SortedMap.empty (partnersOf base ours theirs) usage rows []
      ⟨collisionsOf (present rows), []⟩).conflicts, c.path = p := by
    intro p hex
    exact hconflict p (hrows.conflict_iff.mp hex)
  have hconflicts : (outcomeOf SortedMap.empty (partnersOf base ours theirs) usage rows []
      ⟨collisionsOf (present rows), []⟩).conflicts = [] := by
    refine List.eq_nil_iff_forall_not_mem.mpr (fun c hc => ?_)
    exact hnone c.path ⟨c, hc, rfl⟩
  have hmerged : (outcomeOf SortedMap.empty (partnersOf base ours theirs) usage rows []
      ⟨collisionsOf (present rows), []⟩).merged = retained m := by
    apply SortedMap.ext
    intro p
    rw [hrows.merged_eq (hnone p), (hrule p).2, get?_retained]
  exact (MergeOutcome.mk.injEq ..).mpr ⟨hmerged, hconflicts, rfl, rfl⟩

/-- Merging with an unchanged side, or the same change on both sides, takes all entries of the
changed one and loads nothing. -/
theorem merge_one_sided (base side : Manifest Id) (load : Id → Caller σ E Str) (s : σ) :
    (∀ usage, admission base base side = (.ok usage : Except (MergeError E) Usage) →
        merge base base side load s = .ok (⟨retained side, [], [], usage⟩, s)) ∧
      (∀ usage, admission base side base = (.ok usage : Except (MergeError E) Usage) →
        merge base side base load s = .ok (⟨retained side, [], [], usage⟩, s)) ∧
      ∀ usage, admission base side side = (.ok usage : Except (MergeError E) Usage) →
        merge base side side load s = .ok (⟨retained side, [], [], usage⟩, s) := by
  have hself : ∀ source dest entry, ¬ base.Renamed base source dest entry := by
    intro source dest entry h
    obtain ⟨h₁, h₂⟩ := (h.removed source).mpr rfl
    rw [h₁] at h₂
    cases h₂
  refine ⟨fun usage husage => merge_of_take ?_ ?_ ?_ husage s,
    fun usage husage => merge_of_take ?_ ?_ ?_ husage s,
    fun usage husage => merge_of_take ?_ ?_ ?_ husage s⟩
  · intro p
    unfold mergePath sidesOf
    simp only
    split
    · rename_i h
      rcases h with h | h <;> rw [h]
    · simp only [if_true]
  · intro p
    refine ⟨fun he => he.1 rfl, ?_⟩
    unfold value sidesOf
    simp only [if_true]
    split
    · rename_i h
      rw [h]
    · rfl
  · rintro p ⟨source, o, t, eo, et, ho, _⟩
    exact hself _ _ _ ho
  · intro p
    unfold mergePath sidesOf
    simp only
    simp only [or_true, if_true]
  · intro p
    refine ⟨fun he => he.2.1 rfl, ?_⟩
    unfold value sidesOf
    simp only [if_true]
  · rintro p ⟨source, o, t, eo, et, _, ht, _⟩
    exact hself _ _ _ ht
  · intro p
    unfold mergePath sidesOf
    simp only
    simp only [true_or, if_true]
  · intro p
    refine ⟨fun he => he.2.2.1 rfl, ?_⟩
    unfold value sidesOf
    simp only [if_true]
    split
    · rfl
    · rfl
  · rintro p ⟨source, o, t, eo, et, ho, ht, hne, _⟩
    have hentry : eo = et := by
      have h₁ := ((ho.removed source).mpr rfl).1
      have h₂ := ((ht.removed source).mpr rfl).1
      exact Option.some.inj (h₁.symm.trans h₂)
    rw [hentry] at ho
    exact hne ((ht.added o).mp ((ho.added o).mpr rfl))

end merging

/-! ### Failures -/

section failures
variable {Id σ E α β : Type}

/-- The error of a limit that is passed. -/
def Limited (e : MergeError E) : Prop :=
  ∃ resource required, e = .resource ⟨resource, required, resource.limit⟩ ∧ resource.limit < required

/-- The error of the caller's loader, or of a limit that is passed. -/
def Faults (load : Id → Caller σ E Str) (e : MergeError E) : Prop :=
  (∃ err id s, e = .load err ∧ load id s = .error err) ∨ Limited e

/-- Every error is one of some kind. -/
def Fails {ε : Type} (P : ε → Prop) (x : Except ε α) : Prop := ∀ e, x = .error e → P e

theorem Fails.pure {ε : Type} {P : ε → Prop} (a : α) : Fails P (Pure.pure a : Except ε α) := by
  intro e h
  cases h

theorem Fails.bind {ε : Type} {P : ε → Prop} {x : Except ε α} {f : α → Except ε β} (hx : Fails P x)
    (hf : ∀ a, Fails P (f a)) : Fails P (x >>= f) := by
  intro e h
  cases hxa : x with
  | error e' =>
      rw [hxa] at h
      cases h
      exact hx _ hxa
  | ok a =>
      rw [hxa] at h
      exact hf a e h

theorem fails_check (resource : Resource) (required : ℕ) :
    Fails Limited (resource.check required : Except (MergeError E) Unit) := by
  intro e h
  unfold Resource.check at h
  split at h
  · rename_i hlt
    cases h
    exact ⟨resource, required, rfl, hlt⟩
  · cases h

theorem fails_reserve (usage : Usage) (units : ℕ) :
    Fails Limited (usage.reserve units : Except (MergeError E) Usage) :=
  (fails_check _ _).bind (fun _ => Fails.pure _)

theorem fails_loaded (usage : Usage) (bytes : ℕ) :
    Fails Limited (usage.loaded bytes : Except (MergeError E) Usage) :=
  (fails_check _ _).bind (fun _ => (fails_check _ _).bind (fun _ =>
    (fails_reserve _ _).bind (fun _ => Fails.pure _)))

theorem fails_sideWork (n b m o : ℕ) : Fails Limited (sideWork n b m o : Except (MergeError E) ℕ) :=
  (fails_check _ _).bind (fun _ => Fails.pure _)

theorem fails_linesWork (base ours theirs : Str) :
    Fails Limited (linesWork base ours theirs : Except (MergeError E) ℕ) :=
  (fails_check _ _).bind (fun _ => (fails_check _ _).bind (fun _ => (fails_check _ _).bind (fun _ =>
    (fails_sideWork _ _ _ _).bind (fun _ => (fails_sideWork _ _ _ _).bind (fun _ => Fails.pure _)))))

theorem fails_admission (base ours theirs : Manifest Id) :
    Fails Limited (admission base ours theirs : Except (MergeError E) Usage) := by
  have hpaths : ∀ (paths : List RepoPath) (total : ℕ × ℕ),
      Fails Limited (paths.foldlM admitPath total : Except (MergeError E) _) := by
    intro paths
    induction paths with
    | nil => exact fun total => Fails.pure _
    | cons path paths ih =>
        intro total
        rw [List.foldlM_cons]
        exact ((fails_check _ _).bind (fun _ => (fails_check _ _).bind (fun _ => Fails.pure _))).bind ih
  exact (fails_check _ _).bind (fun _ => (hpaths _ _).bind (fun _ => fails_reserve _ _))

variable {load : Id → Caller σ E Str}

/-- Every error of a step is one of the loader or of a limit. -/
def StepFaults (load : Id → Caller σ E Str) (x : MergeM σ E α) : Prop := ∀ s, Fails (Faults load) (x s)

theorem StepFaults.pure (a : α) : StepFaults load (Pure.pure a : MergeM σ E α) := fun _ => Fails.pure _

theorem StepFaults.bind {x : MergeM σ E α} {f : α → MergeM σ E β} (hx : StepFaults load x)
    (hf : ∀ a, StepFaults load (f a)) : StepFaults load (x >>= f) :=
  fun s => (hx s).bind (fun r => hf r.1 r.2)

theorem stepFaults_spend {f : Usage → Except (MergeError E) Usage} (hf : ∀ usage, Fails Limited (f usage)) :
    StepFaults load (spend f : MergeM σ E Unit) :=
  fun s => Fails.bind (fun e h => Or.inr (hf s.2 e h)) (fun _ => Fails.pure _)

theorem stepFaults_boundedLoad (id : Id) : StepFaults load (boundedLoad load id) := by
  refine StepFaults.bind ?_ (fun bytes => (stepFaults_spend (fun usage => fails_loaded usage _)).bind
    (fun _ => StepFaults.pure bytes))
  intro s e h
  unfold call at h
  cases hl : load id s.1 with
  | ok r =>
      rw [hl] at h
      cases h
  | error err =>
      rw [hl] at h
      cases h
      exact Or.inl ⟨err, id, s.1, rfl, hl⟩

theorem stepFaults_mergeContent [DecidableEq Id] (b o t : Id) (executable : Bool) :
    StepFaults load (mergeContent load b o t executable) := by
  refine (stepFaults_boundedLoad b).bind (fun bytes => (stepFaults_boundedLoad o).bind (fun bytes' =>
    (stepFaults_boundedLoad t).bind (fun bytes'' => ?_)))
  split
  · exact StepFaults.pure _
  · refine StepFaults.bind ?_ (fun r => ?_)
    · exact (stepFaults_spend (fun usage => (fails_linesWork _ _ _).bind
        (fun w => fails_reserve usage w))).bind (fun _ => StepFaults.pure _)
    · cases r with
      | none => exact StepFaults.pure _
      | some bytes => exact StepFaults.pure _

theorem stepFaults_mergePath [DecidableEq Id] (sides : Sides Id) : StepFaults load (mergePath load sides) := by
  unfold mergePath
  split
  · exact StepFaults.pure _
  split
  · exact StepFaults.pure _
  split
  · simp only
    split
    · exact StepFaults.pure _
    split
    · exact StepFaults.pure _
    · exact stepFaults_mergeContent _ _ _ _
  · exact StepFaults.pure _
  · exact StepFaults.pure _
  · exact StepFaults.pure _

/-- A merge fails only with the loader, or by passing a limit. -/
theorem faults_of_merge [DecidableEq Id] (base ours theirs : Manifest Id) (s : σ) :
    Fails (Faults load) (merge base ours theirs load s) := by
  rw [merge_eq]
  have hrows : ∀ paths : List RepoPath, StepFaults load (paths.mapM (mergeRow load base ours theirs)) := by
    intro paths
    induction paths with
    | nil =>
        rw [List.mapM_nil]
        exact StepFaults.pure _
    | cons path paths ih =>
        rw [List.mapM_cons]
        exact ((stepFaults_mergePath _).bind (fun _ => StepFaults.pure _)).bind
          (fun _ => ih.bind (fun _ => StepFaults.pure _))
  refine Fails.bind (fun e h => Or.inr (fails_admission _ _ _ e h)) (fun usage => ?_)
  exact Fails.bind (((hrows _).bind (fun _ => StepFaults.pure _)) (s, usage)) (fun _ => Fails.pure _)

end failures

/-! ### The three-way rule of a merge -/

section keeps
variable {Id σ E : Type} [DecidableEq Id]

/-- A merge without choices and aliases has exactly the conflicts of the three-way rule, the exact
renames and the paths that remain, every other path has its three-way value, and an unchanged side
loses nothing. -/
theorem merge_keeps (base ours theirs : Manifest Id) {load : Id → Caller σ E Str} {content : Id → Str}
    (hload : Reads load content) (s : σ) :
    (∀ outcome s', merge base ours theirs load s = .ok (outcome, s') →
      (∀ p, (∃ c ∈ outcome.conflicts, c.path = p) ↔
        Edited content (sidesOf base ours theirs p) ∨ Diverged base ours theirs p ∨
          Collides content base ours theirs p) ∧
      ∀ p, (¬ ∃ c ∈ outcome.conflicts, c.path = p) →
        outcome.merged.get? p = value content (sidesOf base ours theirs p)) ∧
    (∀ e, merge base ours theirs load s = .error e → Faults load e) ∧
    ∀ (side : Manifest Id) (load : Id → Caller σ E Str),
      (∀ usage, admission base base side = (.ok usage : Except (MergeError E) Usage) →
        merge base base side load s = .ok (⟨retained side, [], [], usage⟩, s)) ∧
      (∀ usage, admission base side base = (.ok usage : Except (MergeError E) Usage) →
        merge base side base load s = .ok (⟨retained side, [], [], usage⟩, s)) ∧
      ∀ usage, admission base side side = (.ok usage : Except (MergeError E) Usage) →
        merge base side side load s = .ok (⟨retained side, [], [], usage⟩, s) := by
  refine ⟨fun outcome s' h => ?_, faults_of_merge base ours theirs s,
    fun side load => merge_one_sided base side load s⟩
  rw [merge_eq] at h
  obtain ⟨usage, _, h⟩ := except_bind_eq_ok.mp h
  obtain ⟨⟨rows, t⟩, hrows, hout⟩ := except_bind_eq_ok.mp h
  cases hout
  have hdecided := decidedRows_of_threeWay hload hrows
  exact ⟨fun p => hdecided.conflict_iff, fun p hnot => hdecided.merged_eq hnot⟩

/-- Contents that both sides added differently are in conflict. -/
theorem merge_keeps_addAdd : ∃ outcome s',
    merge Manifest.empty (fileX 1) (fileX 2) (fun id s => (.ok ([id.toUInt8], s) : Except Unit _)) () =
      .ok (outcome, s') ∧
    ((∃ c ∈ outcome.conflicts, c.path = pathX) ↔
      Edited (fun id => [id.toUInt8]) (sidesOf Manifest.empty (fileX 1) (fileX 2) pathX) ∨
        Diverged Manifest.empty (fileX 1) (fileX 2) pathX ∨
        Collides (fun id => [id.toUInt8]) Manifest.empty (fileX 1) (fileX 2) pathX) := by
  have hload : Reads (fun (id : ℕ) (s : Unit) => (.ok ([id.toUInt8], s) : Except Unit _))
      (fun id => [id.toUInt8]) := by
    intro id s bytes s' h
    cases h
    rfl
  have h : merge Manifest.empty (fileX 1) (fileX 2)
      (fun id s => (.ok ([id.toUInt8], s) : Except Unit _)) () =
        .ok (⟨SortedMap.empty, [⟨pathX, .addAdd, none, some (.regular 1 false),
          some (.regular 2 false), none⟩], [], ⟨512, 0⟩⟩, ()) := by
    decide +kernel
  exact ⟨_, _, h, ((merge_keeps Manifest.empty (fileX 1) (fileX 2) hload ()).1 _ _ h).1 pathX⟩

end keeps

end Merge

end Javelin
