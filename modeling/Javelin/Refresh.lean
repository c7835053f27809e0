import Javelin.Directories
import Javelin.MergePaths

/-! # Refreshing a directory

`preview` decides what brings a directory from the snapshot it was synced with to the head: the local
edits and the head's changes are compared path by path (`plan`), a path renamed to two places is a
conflict (`planned`), and so is what stands in the way on disk (`structural`).  The writes of a plan
are its removals and then its additions (`Plan.writes`), and `refresh` performs them.

An addition is free of blocks exactly if `Free` (`blocked_eq_nil`), and with every file tracked on a
case-sensitive volume nothing else refuses. -/

namespace Javelin

open KeyedList

/-- One change of a path: the new entry, or `none` for a removal. -/
abbrev Write (Id : Type) := RepoPath × Option (FileEntry Id)

namespace Refresh

section definitions
variable {Id : Type} [DecidableEq Id]

/-! ### Changes -/

/-- The entries of `changes_from`. -/
def deltaFrom (base after : Manifest Id) : List (Write Id) :=
  (after.entries.toList.filter (fun e => decide (base.entries.get? e.1 ≠ some e.2))).map
      (fun e => (e.1, some e.2)) ++
    (base.entries.keys.filter (fun p => (after.entries.get? p).isNone)).map (fun p => (p, none))

theorem mem_deltaFrom {base after : Manifest Id} {p : RepoPath} {change : Option (FileEntry Id)} :
    (p, change) ∈ deltaFrom base after ↔
      base.entries.get? p ≠ after.entries.get? p ∧ change = after.entries.get? p := by
  unfold deltaFrom
  rw [List.mem_append, List.mem_map, List.mem_map]
  constructor
  · intro h
    rcases h with ⟨⟨q, entry⟩, hq, h⟩ | ⟨q, hq, h⟩
    · cases h
      obtain ⟨hq, hne⟩ := List.mem_filter.mp hq
      have hget := SortedMap.get?_eq_some.mpr hq
      rw [hget]
      exact ⟨of_decide_eq_true hne, rfl⟩
    · cases h
      obtain ⟨hq, hnone⟩ := List.mem_filter.mp hq
      have hnone := Option.isNone_iff_eq_none.mp hnone
      rw [hnone]
      exact ⟨Option.isSome_iff_ne_none.mp (SortedMap.mem_keys.mp hq), rfl⟩
  · intro h
    obtain ⟨hne, rfl⟩ := h
    cases hafter : after.entries.get? p with
    | some entry =>
        rw [hafter] at hne
        exact Or.inl ⟨(p, entry), List.mem_filter.mpr ⟨SortedMap.get?_eq_some.mp hafter, decide_eq_true hne⟩, rfl⟩
    | none =>
        rw [hafter] at hne
        exact Or.inr ⟨p, List.mem_filter.mpr
          ⟨SortedMap.mem_keys.mpr (Option.isSome_iff_ne_none.mpr hne), by rw [hafter]; rfl⟩, rfl⟩

theorem deltaFrom_nodup (base after : Manifest Id) : ((deltaFrom base after).map Prod.fst).Nodup := by
  unfold deltaFrom
  rw [List.map_append, List.map_map, List.map_map, List.nodup_append]
  refine ⟨?_, ?_, ?_⟩
  · have hsub : ((after.entries.toList.filter (fun e => decide (base.entries.get? e.1 ≠ some e.2))).map
        Prod.fst).Sublist after.entries.keys := List.filter_sublist.map _
    exact after.entries.keys_nodup.sublist hsub
  · simpa [Function.comp_def] using base.entries.keys_nodup.sublist List.filter_sublist
  · intro p hp q hq he
    subst he
    obtain ⟨⟨p', entry⟩, hm, rfl⟩ := List.mem_map.mp hp
    obtain ⟨q', hq', he⟩ := List.mem_map.mp hq
    have he : q' = p' := he
    have hget := SortedMap.get?_eq_some.mpr (List.mem_filter.mp hm).1
    have hnone := Option.isNone_iff_eq_none.mp (List.mem_filter.mp hq').2
    rw [he, hget] at hnone
    cases hnone

/-- `changes_from`: the complete delta from `base` to `after`, with a deletion for each lost entry. -/
def changesFrom (base after : Manifest Id) : SparseChanges Id where
  entries := SortedMap.ofList (deltaFrom base after)
  valid := by
    intro p hp
    obtain ⟨⟨q, change⟩, hm, rfl⟩ := List.mem_map.mp (SortedMap.mem_keys_ofList hp)
    obtain ⟨hne, rfl⟩ := mem_deltaFrom.mp hm
    cases hbase : base.entries.get? q with
    | some entry => exact base.valid q (SortedMap.mem_keys.mpr (by rw [hbase]; rfl))
    | none =>
        rw [hbase] at hne
        exact after.valid q (SortedMap.mem_keys.mpr (Option.isSome_iff_ne_none.mpr (Ne.symm hne)))

theorem get?_changesFrom {base after : Manifest Id} {p : RepoPath} {change : Option (FileEntry Id)} :
    (changesFrom base after).entries.get? p = some change ↔
      base.entries.get? p ≠ after.entries.get? p ∧ change = after.entries.get? p := by
  rw [← mem_deltaFrom]
  exact SortedMap.get?_ofList (deltaFrom_nodup base after) p change

theorem get?_changesFrom_eq_none {base after : Manifest Id} {p : RepoPath} :
    (changesFrom base after).entries.get? p = none ↔ base.entries.get? p = after.entries.get? p := by
  rw [Option.eq_none_iff_forall_ne_some]
  simp only [ne_eq, get?_changesFrom, not_and]
  constructor
  · intro h
    by_contra hne
    exact h _ hne rfl
  · exact fun h _ hne => absurd h hne

/-! ### The three-way decision -/

/-- The decision for one refresh; nothing is written until it has no conflicts. -/
structure Plan (Id : Type) where
  conflicts : SortedSet RepoPath
  apply : List (Write Id)
  kept : ℕ
deriving DecidableEq

/-- Head changes of paths that the directory changed to something else. -/
def disagreed (mine theirs : SparseChanges Id) : List RepoPath :=
  (theirs.entries.toList.filter (fun e => match mine.entries.get? e.1 with
    | some change => decide (change ≠ e.2)
    | none => false)).map Prod.fst

/-- Local files below a path where the head has a file. -/
def overrun (mine theirs : SparseChanges Id) : List RepoPath :=
  (mine.entries.toList.filter (fun e => e.2.isSome && e.1.ancestors.any (fun dir =>
    match theirs.entries.get? dir with
    | some (some _) => true
    | _ => false))).map Prod.fst

/-- `plan`: the decision over local edits and head changes. -/
def plan (mine theirs : SparseChanges Id) : Plan Id where
  conflicts := (SortedSet.addAll SortedMap.empty (disagreed mine theirs)).addAll (overrun mine theirs)
  apply := theirs.entries.toList.filter (fun e => (mine.entries.get? e.1).isNone)
  kept := (mine.entries.keys.filter (fun p => (theirs.entries.get? p).isNone)).length

/-- Both destinations of each path that the two sides renamed to different ones. -/
def divergedRenames (base scanned target : Manifest Id) : List RepoPath :=
  (base.renamesTo scanned).toList.flatMap (fun e => match (base.renamesTo target).get? e.1 with
    | some other => if other ≠ e.2 then [e.2, other] else []
    | none => [])

/-- The plan before the disk is looked at: `uncertain` paths still changed during the scan. -/
def planned (base scanned target : Manifest Id) (uncertain : List RepoPath) : Plan Id :=
  let theirs := changesFrom base target
  let decided := plan (changesFrom base scanned) theirs
  let conflicts := (decided.conflicts.addAll
      (uncertain.filter (fun p => (theirs.entries.get? p).isSome))).addAll (divergedRenames base scanned target)
  { decided with
    conflicts := conflicts
    apply := decided.apply.filter (fun e => decide (e.1 ∉ conflicts)) }

/-! ### What the disk refuses -/

/-- The paths a list of changes removes. -/
def gone (apply : List (Write Id)) : SortedSet RepoPath :=
  SortedSet.addAll SortedMap.empty ((apply.filter (fun e => e.2.isNone)).map Prod.fst)

/-- `freed`: a removed file or link stands above the path. -/
def freed (path : RepoPath) (gone : SortedSet RepoPath) : Bool :=
  path.ancestors.reverse.any (fun parent => decide (parent ∈ gone))

/-- `removed_under`: some removed path lies under the directory. -/
def removedUnder (gone : SortedSet RepoPath) (dir : RepoPath) : Bool :=
  ((gone.keys.dropWhile (fun path => decide (path < dir))).takeWhile
      (fun path => dir.asStr.isPrefixOf path.asStr)).any
    (fun path => decide (dir.asStr.length < path.asStr.length) && path.asStr[dir.asStr.length]? == some slash)

/-- `emptied`: every entry under the directory is removed, or a directory the removals empty in turn.
No directory is deeper than the number of levels given. -/
def emptied (d : Disk Id) (gone : SortedSet RepoPath) : ℕ → RepoPath → Bool
  | 0, _ => true
  | levels + 1, dir => (d.readDir dir.names).all (fun path =>
      if d.at? path = some .dir then removedUnder gone path && emptied d gone levels path
      else decide (path ∈ gone))

/-- `blocked`: files where an addition needs a parent, and directories where it needs a file. -/
def blocked (d : Disk Id) (apply : List (Write Id)) (gone : SortedSet RepoPath) : List RepoPath :=
  apply.flatMap (fun e =>
    if e.2.isNone || freed e.1 gone then []
    else e.1.ancestors.reverse.flatMap (fun parent =>
          if (d.file parent).isSome then [parent, e.1] else []) ++
        (if d.at? e.1 = some .dir ∧ ¬ (removedUnder gone e.1 && emptied d gone MAX_DEPTH e.1) then [e.1]
          else []))

/-- `occupied`: additions over a file that the scan did not see and that does not hold the head's entry,
each with the other spellings that hold it and stay. -/
def occupied (d : Disk Id) (apply : List (Write Id)) (scanned : Manifest Id) (gone : SortedSet RepoPath)
    (holders : RepoPath → List RepoPath) : List (RepoPath × List RepoPath) :=
  apply.filterMap (fun e => e.2.bind (fun entry =>
    if (scanned.entries.get? e.1).isSome || decide (e.1 ∈ gone) || freed e.1 gone then none
    else match d.file e.1 with
      | some found =>
          -- an interrupted refresh already wrote it
          if found = entry then none
          else
            let spellings := holders e.1
            let kept := spellings.filter (fun name => decide (name ∉ gone))
            if spellings.isEmpty || !kept.isEmpty then some (e.1, kept) else none
      | none => none))

/-- The scratch tree of `probe`: the directories and files made so far, and the aliases met. -/
structure Scratch where
  dirs : List RepoPath
  files : List RepoPath
  found : List RepoPath

/-- Creates a path component by component; a component that exists under another role is an alias. -/
def Scratch.enter (s : Scratch) (path : RepoPath) : List RepoPath → Scratch
  | [] =>
      if path ∈ s.dirs then s
      else if path ∈ s.files then { s with found := s.found ++ [path] }
      else { s with files := path :: s.files }
  | dir :: dirs =>
      if dir ∈ s.dirs then s.enter path dirs
      else if dir ∈ s.files then { s with found := s.found ++ [path] }
      else Scratch.enter { s with dirs := dir :: s.dirs } path dirs

/-- `probe` on a volume that tells every two names apart. -/
def probe (paths : List RepoPath) : List RepoPath :=
  (paths.foldl (fun (s : Scratch) path => s.enter path path.ancestors) ⟨[], [], []⟩).found

/-- `probe_volume`: forward and in reverse, so both members of a pair are found. -/
def probeVolume (paths : List RepoPath) : List RepoPath := probe paths ++ probe paths.reverse

/-- `alias_holders`: names beside the path's own that hold the same entry on the volume. -/
def aliasHolders (d : Disk Id) (path : RepoPath) : List RepoPath :=
  (d.readDir path.names.dropLast).filter (fun other => other ≠ path && !(probeVolume [other, path]).isEmpty)

/-- A component that resolves but is missing from its parent's listing, before any removed one. -/
def misspelt (d : Disk Id) (gone : SortedSet RepoPath) : List RepoPath → Bool
  | [] => false
  | dir :: dirs =>
      if dir ∈ gone then false
      else if (d.at? dir).isNone then misspelt d gone dirs
      else if dir ∈ d.readDir dir.names.dropLast then misspelt d gone dirs
      else true

/-- `aliased_dirs`: additions through another spelling of a directory on disk. -/
def aliasedDirs (d : Disk Id) (apply : List (Write Id)) (gone : SortedSet RepoPath) : List RepoPath :=
  (apply.filter (fun e => e.2.isSome && misspelt d gone e.1.ancestors)).map Prod.fst

/-- `aliased`: additions that reach an entry another addition makes. -/
def aliased (apply : List (Write Id)) : List RepoPath :=
  probeVolume ((apply.filter (fun e => e.2.isSome)).map Prod.fst)

/-- The conflicts the changes raise against the directory on disk. -/
def structural (d : Disk Id) (apply : List (Write Id)) (scanned : Manifest Id) : List RepoPath :=
  blocked d apply (gone apply) ++
    (occupied d apply scanned (gone apply) (aliasHolders d)).flatMap (fun o => o.1 :: o.2) ++
    aliasedDirs d apply (gone apply) ++ aliased apply

/-! ### Refresh -/

/-- What the head would write: conflicting writes count too, conflicting removals free nothing. -/
def candidate (theirs : SparseChanges Id) (plan : Plan Id) : List (Write Id) :=
  plan.apply ++ theirs.entries.toList.filter (fun e => e.2.isSome && decide (e.1 ∈ plan.conflicts))

/-- `refresh_preview` from a directory synced with `base` to the head `target`: the plan, or the paths
of `RefreshConflict`. -/
def preview (base target : Manifest Id) (d : Disk Id) : Except (List RepoPath) (Plan Id) :=
  let plan := planned base d.scan target []
  let conflicts := plan.conflicts.addAll (structural d (candidate (changesFrom base target) plan) d.scan)
  if conflicts.keys = [] then .ok plan else .error conflicts.keys

/-- The changes of a plan in the order they are made: removals first. -/
def writesOf (apply : List (Write Id)) : List (Write Id) :=
  apply.filter (fun e => e.2.isNone) ++ apply.filter (fun e => e.2.isSome)

def Plan.writes (plan : Plan Id) : List (Write Id) := writesOf plan.apply

/-- One removal or addition; `none` is an I/O error. -/
def write (d : Disk Id) (e : Write Id) : Option (Disk Id) :=
  match e.2 with
  | none => d.removePath e.1
  | some entry => d.placeFile e.1 entry

/-- Performs changes in order. -/
def perform (d : Disk Id) (writes : List (Write Id)) : Option (Disk Id) := writes.foldlM write d

/-- `refresh_workspace`: the directory afterwards. -/
def refresh (base target : Manifest Id) (d : Disk Id) : Except (List RepoPath) (Option (Disk Id)) :=
  (preview base target d).map (fun plan => perform d plan.writes)

end definitions

variable {Id : Type}

/-! ### Removed paths -/

theorem mem_gone {apply : List (Write Id)} {p : RepoPath} : p ∈ gone apply ↔ (p, none) ∈ apply := by
  unfold gone
  rw [SortedSet.mem_addAll, List.mem_map]
  constructor
  · intro h
    rcases h with ⟨⟨q, change⟩, hm, rfl⟩ | h
    · obtain ⟨hm, hnone⟩ := List.mem_filter.mp hm
      rw [show change = none from Option.isNone_iff_eq_none.mp hnone] at hm
      exact hm
    · exact absurd h (SortedSet.not_mem_empty p)
  · exact fun h => Or.inl ⟨(p, none), List.mem_filter.mpr ⟨h, rfl⟩, rfl⟩

/-- A removed file stands above the path. -/
def Freed (removed : RepoPath → Prop) (p : RepoPath) : Prop := ∃ a ∈ p.ancestors, removed a

theorem freed_iff {path : RepoPath} {removed : SortedSet RepoPath} :
    freed path removed = true ↔ Freed (· ∈ removed) path := by
  unfold freed Freed
  rw [List.any_eq_true]
  constructor
  · intro h
    obtain ⟨a, ha, hm⟩ := h
    exact ⟨a, List.mem_reverse.mp ha, of_decide_eq_true hm⟩
  · intro h
    obtain ⟨a, ha, hm⟩ := h
    exact ⟨a, List.mem_reverse.mpr ha, decide_eq_true hm⟩

/-- Between a string and its extensions lie extensions only. -/
theorem prefix_of_between {a s t : Str} (hle : a ≤ s) (hge : s ≤ a ++ t) : a <+: s := by
  induction a generalizing s with
  | nil => exact List.nil_prefix
  | cons b a ih =>
      cases s with
      | nil => exact absurd hle (not_le.mpr (List.nil_lt_cons b a))
      | cons c s =>
          rw [← not_lt, List.cons_lt_cons_iff, not_or, not_lt] at hle
          rw [List.cons_append, ← not_lt, List.cons_lt_cons_iff, not_or, not_lt] at hge
          obtain rfl : b = c := le_antisymm hle.1 hge.1
          have hle' : a ≤ s := not_lt.mp (fun h => hle.2 ⟨rfl, h⟩)
          have hge' : s ≤ a ++ t := not_lt.mp (fun h => hge.2 ⟨rfl, h⟩)
          exact List.cons_prefix_cons.mpr ⟨rfl, ih hle' hge'⟩

/-- A descendant continues its ancestor's string after a slash. -/
theorem asStr_of_mem_ancestors {dir p : RepoPath} (h : dir ∈ p.ancestors) :
    ∃ t, p.asStr = dir.asStr ++ slash :: t := by
  obtain ⟨hne, rest, hr, hp⟩ := RepoPath.mem_ancestors.mp h
  exact ⟨joinNames rest, by rw [RepoPath.asStr, hp, joinNames_append _ hne hr]; rfl⟩

/-- A scan of an ordered list from `lo` reaches what lies past it, as long as it goes on. -/
theorem mem_takeWhile_dropWhile {K : Type} [LinearOrder K] {l : List K} (h : l.Pairwise (· < ·)) {lo g : K}
    {keep : K → Bool} (hg : g ∈ l) (hlo : lo ≤ g) (hkeep : ∀ k, lo ≤ k → k ≤ g → keep k = true) :
    g ∈ (l.dropWhile (fun k => decide (k < lo))).takeWhile keep := by
  induction l with
  | nil => cases hg
  | cons k l ih =>
      obtain ⟨hlt, hl⟩ := List.pairwise_cons.mp h
      by_cases hk : k < lo
      · rw [List.dropWhile_cons_of_pos (by simpa using hk)]
        have hne : g ≠ k := fun he => absurd hk (not_lt.mpr (he ▸ hlo))
        exact ih hl ((List.mem_cons.mp hg).resolve_left hne)
      · have hle : lo ≤ k := not_lt.mp hk
        have hself : l.dropWhile (fun k => decide (k < lo)) = l := by
          cases l with
          | nil => rfl
          | cons x l =>
              have hx : ¬ x < lo := not_lt.mpr (hle.trans (hlt x List.mem_cons_self).le)
              exact List.dropWhile_cons_of_neg (by simpa using hx)
        rw [List.dropWhile_cons_of_neg (by simpa using hk)]
        rcases List.mem_cons.mp hg with rfl | hg
        · rw [List.takeWhile_cons_of_pos (hkeep g hle (le_refl g))]
          exact List.mem_cons_self
        · rw [List.takeWhile_cons_of_pos (hkeep k hle (hlt g hg).le)]
          have hih := ih hl hg
          rw [hself] at hih
          exact List.mem_cons_of_mem _ hih

theorem removedUnder_iff {removed : SortedSet RepoPath} {dir : RepoPath} (hne : dir.names ≠ []) :
    removedUnder removed dir = true ↔ ∃ g, g ∈ removed ∧ dir ∈ g.ancestors := by
  have hkeys : ∀ g, g ∈ removed.keys ↔ g ∈ removed := fun g => SortedMap.mem_keys
  unfold removedUnder
  rw [List.any_eq_true]
  constructor
  · intro h
    obtain ⟨g, hg, hunder⟩ := h
    have hprefix := List.all_eq_true.mp List.all_takeWhile g hg
    have hmem := (List.takeWhile_prefix _).subset hg
    have hmem := (List.dropWhile_suffix _).subset hmem
    refine ⟨g, (hkeys g).mp hmem, RepoPath.mem_ancestors.mpr ⟨hne, ?_⟩⟩
    obtain ⟨t, ht⟩ := List.isPrefixOf_iff_prefix.mp hprefix
    rw [Bool.and_eq_true, beq_iff_eq, ← ht, List.getElem?_append_right (le_refl _), Nat.sub_self] at hunder
    cases t with
    | nil => cases hunder.2
    | cons c t =>
        obtain rfl : c = slash := Option.some.inj hunder.2
        obtain ⟨rest, hr, hp, _⟩ := joinNames_append_slash hne ht
        exact ⟨rest, hr, hp⟩
  · intro h
    obtain ⟨g, hg, ha⟩ := h
    obtain ⟨t, ht⟩ := asStr_of_mem_ancestors ha
    have hascending : removed.keys.Pairwise (· < ·) :=
      List.Pairwise.map Prod.fst (fun a b hlt => hlt) removed.ascending
    have hle : dir ≤ g := by
      show dir.asStr ≤ g.asStr
      rw [ht]
      exact not_lt.mp (fun hlt => List.not_lt.mpr List.le_append_left hlt)
    refine ⟨g, mem_takeWhile_dropWhile hascending ((hkeys g).mpr hg) hle (fun k hlo hhi => ?_), ?_⟩
    · have hhi : k.asStr ≤ g.asStr := hhi
      rw [ht] at hhi
      exact List.isPrefixOf_iff_prefix.mpr (prefix_of_between hlo hhi)
    · rw [ht]
      simp

/-! ### Blocked additions -/

section blocks
variable {d : Disk Id} {removed : SortedSet RepoPath}

theorem mem_readDir {dir : List Name} {p : RepoPath} :
    p ∈ d.readDir dir ↔ d.at? p ≠ none ∧ p.names.dropLast = dir := by
  unfold Disk.readDir
  rw [List.mem_filter, Disk.mem_keys, decide_eq_true_eq]

/-- An entry of a directory lies below it. -/
theorem mem_ancestors_of_mem_readDir {dir p : RepoPath} (hne : dir.names ≠ []) (h : p ∈ d.readDir dir.names) :
    dir ∈ p.ancestors := by
  obtain ⟨hp, hdrop⟩ := mem_readDir.mp h
  have hnames : p.names ≠ [] := (Disk.valid_of_at? hp).1
  refine RepoPath.mem_ancestors.mpr ⟨hne, [p.names.getLast hnames], by simp, ?_⟩
  rw [← hdrop, List.dropLast_append_getLast hnames]

/-- What lies below a directory is one of its entries or below one. -/
theorem exists_mem_readDir {dir q : RepoPath} (hq : d.at? q ≠ none) (h : dir ∈ q.ancestors) :
    ∃ child ∈ d.readDir dir.names, child.names.length = dir.names.length + 1 ∧
      (child = q ∨ child ∈ q.ancestors) := by
  obtain ⟨hne, rest, hr, hqn⟩ := RepoPath.mem_ancestors.mp h
  obtain ⟨n, rest, rfl⟩ := List.exists_cons_of_ne_nil hr
  have hat : ∀ child : RepoPath, child = q ∨ child ∈ q.ancestors → d.at? child ≠ none := by
    intro child hc
    rcases hc with rfl | hc
    · exact hq
    · rw [Disk.dir_of_mem_ancestors hq hc]
      simp
  have hup : (⟨dir.names ++ [n]⟩ : RepoPath) = q ∨ (⟨dir.names ++ [n]⟩ : RepoPath) ∈ q.ancestors := by
    by_cases hrest : rest = []
    · subst hrest
      exact Or.inl (RepoPath.names_injective hqn.symm)
    · refine Or.inr (RepoPath.mem_ancestors.mpr ⟨by simp, rest, hrest, ?_⟩)
      rw [hqn]
      simp
  refine ⟨⟨dir.names ++ [n]⟩, mem_readDir.mpr ⟨hat _ hup, ?_⟩, by simp, hup⟩
  show (dir.names ++ [n]).dropLast = dir.names
  exact List.dropLast_concat

/-- Everything below the directory goes: its files are removed, and so is a file below each directory. -/
structure Doomed (d : Disk Id) (removed : RepoPath → Prop) (dir : RepoPath) : Prop where
  files : ∀ q entry, d.at? q = some (.file entry) → dir ∈ q.ancestors → removed q
  dirs : ∀ q, d.at? q = some .dir → (q = dir ∨ dir ∈ q.ancestors) → ∃ g, removed g ∧ q ∈ g.ancestors

theorem emptied_iff {levels : ℕ} {dir : RepoPath} (hne : dir.names ≠ [])
    (hlevels : MAX_DEPTH ≤ dir.names.length + levels) :
    emptied d removed levels dir = true ↔
      (∀ q entry, d.at? q = some (.file entry) → dir ∈ q.ancestors → q ∈ removed) ∧
      (∀ q, d.at? q = some .dir → dir ∈ q.ancestors → ∃ g, g ∈ removed ∧ q ∈ g.ancestors) := by
  induction levels generalizing dir with
  | zero =>
      -- nothing lies below a directory at the last level
      have hno : ∀ q, d.at? q ≠ none → dir ∉ q.ancestors := by
        intro q hq ha
        have hlt := RepoPath.length_lt_of_mem_ancestors ha
        have hvalid := (Disk.valid_of_at? hq).2.1
        omega
      refine ⟨fun _ => ⟨fun q entry hq ha => ?_, fun q hq ha => ?_⟩, fun _ => rfl⟩
      · exact absurd ha (hno q (by rw [hq]; simp))
      · exact absurd ha (hno q (by rw [hq]; simp))
  | succ levels ih =>
      unfold emptied
      rw [List.all_eq_true]
      constructor
      · intro h
        have hbelow : ∀ q, d.at? q ≠ none → dir ∈ q.ancestors →
            (∀ entry, d.at? q = some (.file entry) → q ∈ removed) ∧
            (d.at? q = some .dir → ∃ g, g ∈ removed ∧ q ∈ g.ancestors) := by
          intro q hq ha
          obtain ⟨child, hchild, hlen, hup⟩ := exists_mem_readDir hq ha
          have hthis := h child hchild
          have hcne : child.names ≠ [] := List.ne_nil_of_length_pos (by omega)
          rcases hup with rfl | hup
          · refine ⟨fun entry he => ?_, fun he => ?_⟩
            · rw [if_neg (by rw [he]; simp)] at hthis
              exact of_decide_eq_true hthis
            · rw [if_pos he, Bool.and_eq_true] at hthis
              exact (removedUnder_iff hcne).mp hthis.1
          · rw [if_pos (Disk.dir_of_mem_ancestors hq hup), Bool.and_eq_true] at hthis
            obtain ⟨hfiles, hdirs⟩ := (ih hcne (by omega)).mp hthis.2
            exact ⟨fun entry he => hfiles q entry he hup, fun he => hdirs q he hup⟩
        exact ⟨fun q entry hq ha => (hbelow q (by rw [hq]; simp) ha).1 entry hq,
          fun q hq ha => (hbelow q (by rw [hq]; simp) ha).2 hq⟩
      · intro h child hchild
        have ha := mem_ancestors_of_mem_readDir hne hchild
        obtain ⟨hat, hdrop⟩ := mem_readDir.mp hchild
        have hlt := RepoPath.length_lt_of_mem_ancestors ha
        have hcne : child.names ≠ [] := List.ne_nil_of_length_pos (by omega)
        obtain ⟨found, hc⟩ := Option.ne_none_iff_exists'.mp hat
        cases found with
        | file entry =>
            rw [if_neg (by rw [hc]; simp)]
            exact decide_eq_true (h.1 child entry hc ha)
        | dir =>
            rw [if_pos hc, Bool.and_eq_true]
            refine ⟨(removedUnder_iff hcne).mpr (h.2 child hc ha), (ih hcne (by omega)).mpr ⟨?_, ?_⟩⟩
            · exact fun q entry hq hup => h.1 q entry hq (RepoPath.ancestors_trans ha hup)
            · exact fun q hq hup => h.2 q hq (RepoPath.ancestors_trans ha hup)

theorem doomed_iff {dir : RepoPath} (hdir : d.at? dir = some .dir) :
    (removedUnder removed dir && emptied d removed MAX_DEPTH dir) = true ↔ Doomed d (· ∈ removed) dir := by
  have hne : dir.names ≠ [] := (Disk.valid_of_at? (by rw [hdir]; simp)).1
  rw [Bool.and_eq_true, removedUnder_iff hne, emptied_iff hne (by omega)]
  constructor
  · intro h
    refine ⟨h.2.1, fun q hq hup => ?_⟩
    rcases hup with rfl | hup
    · exact h.1
    · exact h.2.2 q hq hup
  · intro h
    exact ⟨h.dirs dir hdir (Or.inl rfl), h.files, fun q hq hup => h.dirs q hq (Or.inr hup)⟩

/-- Nothing on disk stands in the way of an addition once the removals are made. -/
def Free (d : Disk Id) (removed : RepoPath → Prop) (p : RepoPath) : Prop :=
  Freed removed p ∨ ((∀ a ∈ p.ancestors, d.file a = none) ∧ (d.at? p = some .dir → Doomed d removed p))

theorem blocked_eq_nil {apply : List (Write Id)} :
    blocked d apply removed = [] ↔ ∀ e ∈ apply, e.2 ≠ none → Free d (· ∈ removed) e.1 := by
  unfold blocked
  rw [List.flatMap_eq_nil_iff]
  refine forall_congr' (fun e => forall_congr' (fun _ => ?_))
  by_cases hnone : e.2 = none
  · rw [if_pos (by rw [hnone]; rfl)]
    exact ⟨fun _ h => absurd hnone h, fun _ => rfl⟩
  have hsome : e.2.isNone = false := by
    rw [← Bool.not_eq_true, Option.isNone_iff_eq_none]
    exact hnone
  rw [hsome, Bool.false_or]
  by_cases hfreed : freed e.1 removed = true
  · rw [if_pos hfreed]
    exact ⟨fun _ _ => Or.inl (freed_iff.mp hfreed), fun _ => rfl⟩
  rw [if_neg hfreed, List.append_eq_nil_iff, List.flatMap_eq_nil_iff]
  have habove : (∀ a ∈ e.1.ancestors.reverse, (if (d.file a).isSome then [a, e.1] else []) = []) ↔
      ∀ a ∈ e.1.ancestors, d.file a = none := by
    simp
  have hat : (if d.at? e.1 = some .dir ∧ ¬ (removedUnder removed e.1 && emptied d removed MAX_DEPTH e.1) then [e.1]
      else []) = [] ↔ (d.at? e.1 = some .dir → Doomed d (· ∈ removed) e.1) := by
    by_cases hdir : d.at? e.1 = some .dir
    · by_cases hd : Doomed d (· ∈ removed) e.1
      · rw [if_neg (fun h => h.2 ((doomed_iff hdir).mpr hd))]
        exact ⟨fun _ _ => hd, fun _ => rfl⟩
      · rw [if_pos ⟨hdir, fun h => hd ((doomed_iff hdir).mp h)⟩]
        exact ⟨fun h => absurd h (by simp), fun h => absurd (h hdir) hd⟩
    · simp [hdir]
  rw [habove, hat]
  constructor
  · exact fun h _ => Or.inr h
  · intro h
    exact (h hnone).resolve_left (fun hf => hfreed (freed_iff.mpr hf))

end blocks

/-! ### What else could refuse -/

section others
variable {d : Disk Id}

/-- The scan saw every file. -/
theorem occupied_eq_nil [DecidableEq Id] (apply : List (Write Id)) (removed : SortedSet RepoPath)
    (holders : RepoPath → List RepoPath) : occupied d apply d.scan removed holders = [] := by
  unfold occupied
  rw [List.filterMap_eq_nil_iff]
  intro e _
  cases e.2 with
  | none => rfl
  | some entry =>
      rw [Option.bind_some, Disk.get?_scan]
      cases hf : d.file e.1 with
      | none => split <;> rfl
      | some found => rfl

/-- The volume lists each name as it is spelled. -/
theorem misspelt_eq_false (removed : SortedSet RepoPath) (dirs : List RepoPath) :
    misspelt d removed dirs = false := by
  induction dirs with
  | nil => rfl
  | cons dir dirs ih =>
      unfold misspelt
      split
      · rfl
      · split
        · exact ih
        · rename_i hsome
          rw [if_pos, ih]
          exact mem_readDir.mpr ⟨fun h => hsome (by rw [h]; rfl), rfl⟩

theorem aliasedDirs_eq_nil (apply : List (Write Id)) (removed : SortedSet RepoPath) :
    aliasedDirs d apply removed = [] := by
  unfold aliasedDirs
  simp [misspelt_eq_false]

/-- The scratch tree holds the paths met so far and the directories above them. -/
structure Scratch.Of (s : Scratch) (paths : List RepoPath) : Prop where
  dirs : ∀ a ∈ s.dirs, ∃ p ∈ paths, a ∈ p.ancestors
  files : ∀ p ∈ s.files, p ∈ paths
  found : s.found = []

theorem Scratch.of_enter {path : RepoPath} {paths : List RepoPath} (hnew : path ∉ paths)
    (habove : ∀ a ∈ path.ancestors, a ∉ paths) {dirs : List RepoPath} (hdirs : ∀ a ∈ dirs, a ∈ path.ancestors)
    {s : Scratch} (hsdirs : ∀ a ∈ s.dirs, ∃ p ∈ path :: paths, a ∈ p.ancestors)
    (hfiles : ∀ p ∈ s.files, p ∈ paths) (hfound : s.found = []) : (s.enter path dirs).Of (path :: paths) := by
  have hfiles' : ∀ p ∈ s.files, p ∈ path :: paths := fun p hp => List.mem_cons_of_mem _ (hfiles p hp)
  induction dirs generalizing s with
  | nil =>
      unfold Scratch.enter
      split
      · exact ⟨hsdirs, hfiles', hfound⟩
      · rw [if_neg (fun h => hnew (hfiles path h))]
        refine ⟨hsdirs, fun p hp => ?_, hfound⟩
        rcases List.mem_cons.mp hp with rfl | hp
        · exact List.mem_cons_self
        · exact hfiles' p hp
  | cons dir dirs ih =>
      have hrest : ∀ a ∈ dirs, a ∈ path.ancestors := fun a ha => hdirs a (List.mem_cons_of_mem _ ha)
      have hdir := hdirs dir List.mem_cons_self
      unfold Scratch.enter
      split
      · exact ih hrest hsdirs hfiles hfound hfiles'
      · rw [if_neg (fun h => habove dir hdir (hfiles dir h))]
        refine ih hrest (fun a ha => ?_) hfiles hfound hfiles'
        rcases List.mem_cons.mp ha with rfl | ha
        · exact ⟨path, List.mem_cons_self, hdir⟩
        · exact hsdirs a ha

/-- Paths that are neither equal nor above one another are no aliases. -/
theorem probe_eq_nil {paths : List RepoPath} (hnodup : paths.Nodup)
    (hfree : ∀ p ∈ paths, ∀ q ∈ paths, q ∉ p.ancestors) : probe paths = [] := by
  have key : ∀ (paths before : List RepoPath) (s : Scratch), (paths ++ before).Nodup →
      (∀ p ∈ paths ++ before, ∀ q ∈ paths ++ before, q ∉ p.ancestors) → s.Of before →
      (paths.foldl (fun (s : Scratch) path => s.enter path path.ancestors) s).found = [] := by
    intro paths
    induction paths with
    | nil => exact fun before s _ _ hs => hs.found
    | cons path paths ih =>
        intro before s hn hf hs
        rw [List.foldl_cons]
        have hperm : (path :: paths ++ before).Perm (paths ++ path :: before) := List.perm_middle.symm
        have hmem : ∀ p, p ∈ paths ++ path :: before ↔ p ∈ path :: paths ++ before := fun p => hperm.symm.mem_iff
        have hself : path ∈ path :: paths ++ before := List.mem_append_left _ List.mem_cons_self
        refine ih (path :: before) _ (hperm.nodup_iff.mp hn)
          (fun p hp q hq => hf p ((hmem p).mp hp) q ((hmem q).mp hq)) ?_
        refine Scratch.of_enter ?_ ?_ (fun a ha => ha) ?_ hs.files hs.found
        · intro hb
          rw [List.cons_append, List.nodup_cons] at hn
          exact hn.1 (List.mem_append_right _ hb)
        · intro a ha hb
          exact hf path hself a (List.mem_append_right _ hb) ha
        · intro a ha
          obtain ⟨p, hp, hm⟩ := hs.dirs a ha
          exact ⟨p, List.mem_cons_of_mem _ hp, hm⟩
  refine key paths [] ⟨[], [], []⟩ (by rwa [List.append_nil]) (by rwa [List.append_nil]) ⟨?_, ?_, rfl⟩
  · exact fun a ha => absurd ha List.not_mem_nil
  · exact fun a ha => absurd ha List.not_mem_nil

theorem probeVolume_eq_nil {paths : List RepoPath} (hnodup : paths.Nodup)
    (hfree : ∀ p ∈ paths, ∀ q ∈ paths, q ∉ p.ancestors) : probeVolume paths = [] := by
  unfold probeVolume
  rw [probe_eq_nil hnodup hfree, probe_eq_nil (List.nodup_reverse.mpr hnodup)
    (fun p hp q hq => hfree p (List.mem_reverse.mp hp) q (List.mem_reverse.mp hq))]
  rfl

end others

end Refresh

end Javelin
