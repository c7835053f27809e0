import Javelin.StatCacheRuns
import Javelin.Directories

/-! # What ignore rules hide

A walk of a directory tree at rest visits the directories that are not ignored or lead to a tracked path
(`visited_iff`).  It fails if and only if one of them holds a special file or a name outside the path model, whether
ignored or not (`walk_ok_iff`); otherwise it finds exactly the files and links that are tracked or not ignored
(`mem_walk`).

`walk_hides`: files, links and directories that are ignored and untracked, and whatever an ignored directory without
tracked paths holds, make no difference. -/

namespace Javelin

open KeyedList

/-! ### Paths below a path -/

namespace RepoPath

/-- Both sides of a slash in a path are paths. -/
theorem joinNames_slash {qs : List Name} {d t : Str} (h : joinNames qs = d ++ slash :: t) :
    ∃ ps rest, ps ≠ [] ∧ rest ≠ [] ∧ qs = ps ++ rest ∧ joinNames ps = d ∧ joinNames rest = t := by
  induction qs generalizing d with
  | nil => simp [joinNames] at h
  | cons m qs ih =>
      by_cases hqs : qs = []
      · subst hqs
        refine absurd ?_ m.slash_not_mem
        rw [show joinNames [m] = m.1 from rfl] at h
        rw [h]
        simp
      rw [joinNames_cons m hqs] at h
      by_cases hd : slash ∈ d
      · obtain ⟨d₁, d₂, rfl, hd₁⟩ := List.eq_append_cons_of_mem hd
        rw [List.append_assoc] at h
        obtain ⟨h₁, h₂⟩ := append_slash_inj m.slash_not_mem hd₁ h
        obtain ⟨ps, rest, hps, hrest, hnames, rfl, ht⟩ := ih h₂
        refine ⟨m :: ps, rest, by simp, hrest, ?_, ?_, ht⟩
        · rw [hnames, List.cons_append]
        · rw [joinNames_cons m hps, h₁]
      · obtain ⟨h₁, h₂⟩ := append_slash_inj m.slash_not_mem hd h
        exact ⟨[m], qs, by simp, hqs, rfl, h₁, h₂⟩

/-- A path goes on after another one with a slash if and only if it is below it. -/
theorem below_iff {a p : RepoPath} (ha : a.names ≠ []) :
    (a.asStr ++ [slash]).isPrefixOf p.asStr = true ↔ a ∈ p.ancestors := by
  rw [List.isPrefixOf_iff_prefix, mem_ancestors]
  constructor
  · rintro ⟨t, ht⟩
    rw [List.append_assoc] at ht
    obtain ⟨rest, hrest, hnames, _⟩ := joinNames_append_slash ha ht
    exact ⟨ha, rest, hrest, hnames⟩
  · rintro ⟨_, rest, hrest, hnames⟩
    refine ⟨joinNames rest, ?_⟩
    unfold asStr
    rw [hnames, joinNames_append _ ha hrest, List.append_assoc]
    rfl

/-- The directory of a path is one of its ancestors. -/
theorem parse_directory {d n : Str} {path : RepoPath} (h : parse (d ++ slash :: n) = some path) :
    ∃ q, parse d = some q ∧ q ∈ path.ancestors := by
  obtain ⟨hvalid, hstr⟩ := parse_eq_ok.mp h
  obtain ⟨ps, rest, hps, hrest, hnames, hd, _⟩ := joinNames_slash hstr
  have hmem : (⟨ps⟩ : RepoPath) ∈ path.ancestors := mem_ancestors.mpr ⟨hps, rest, hrest, hnames⟩
  exact ⟨⟨ps⟩, parse_eq_ok.mpr ⟨hvalid.of_mem_ancestors hmem, hd⟩, hmem⟩

end RepoPath

namespace Surroundings

variable {Id : Type} {source : Source} {rules : IgnoreRules} {prior : Manifest Id} {v v' : Volume Id}

/-! ### Ignored paths -/

theorem ignored_below {a p : RepoPath} (h : rules.ignored a.asStr = true) (ha : a ∈ p.ancestors) :
    rules.ignored p.asStr = true := by
  obtain ⟨hne, rest, hrest, hnames⟩ := RepoPath.mem_ancestors.mp ha
  have hstr : p.asStr = a.asStr ++ slash :: joinNames rest := by
    unfold RepoPath.asStr
    rw [hnames, joinNames_append _ hne hrest]
  unfold IgnoreRules.ignored at h ⊢
  rw [Bool.and_eq_true] at h ⊢
  obtain ⟨_, hany⟩ := h
  constructor
  · rw [bne_iff_ne, hstr]
    intro he
    have hslash : slash ∈ CONFIG := by
      rw [← he]
      simp
    exact absurd hslash (by decide)
  · rw [List.any_eq_true] at hany ⊢
    obtain ⟨rule, hrule, hmatch⟩ := hany
    refine ⟨rule, hrule, ?_⟩
    rw [Bool.or_eq_true, List.isPrefixOf_iff_prefix] at hmatch ⊢
    right
    rcases hmatch with heq | hprefix
    · obtain rfl := beq_iff_eq.mp heq
      exact ⟨joinNames rest, by rw [hstr, List.append_assoc]; rfl⟩
    · rw [hstr]
      exact hprefix.trans (List.prefix_append _ _)

/-- No tracked path is below. -/
def Untrodden (prior : Manifest Id) (path : RepoPath) : Prop := ∀ p ∈ prior.entries.keys, path ∉ p.ancestors

theorem untrackedIgnored_dir {path : RepoPath} (hne : path.names ≠ []) :
    untrackedIgnored rules prior path true = true ↔ rules.ignored path.asStr = true ∧ Untrodden prior path := by
  unfold untrackedIgnored Untrodden
  rw [Bool.and_eq_true, if_pos rfl, Bool.not_eq_true', List.any_eq_false]
  simp only [RepoPath.below_iff hne]

theorem untrackedIgnored_file {path : RepoPath} :
    untrackedIgnored rules prior path false = true ↔
      rules.ignored path.asStr = true ∧ prior.entries.get? path = none := by
  unfold untrackedIgnored
  rw [Bool.and_eq_true, if_neg Bool.false_ne_true, Bool.not_eq_true', Option.isSome_eq_false_iff,
    Option.isNone_iff_eq_none]

/-! ### Trees of directories -/

/-- A tree: its root is a directory, and what a directory lists is there. -/
structure Tree (v : Volume Id) : Prop where
  root : v.lookup [] = .ok .directory
  names : ∀ d, v.lookup d = .ok .directory → ∃ items, v.names d = .ok items ∧
    ∀ item ∈ items, item = .nonUtf8 ∨ ∃ n place, item = .name n ∧ slash ∉ n ∧ v.lookup (join d n) = .ok place

/-- The directories below the root that are not below a reserved name. -/
inductive Reached (source : Source) (v : Volume Id) : Str → Prop
  | root : Reached source v []
  | item {d n : Str} {items : List DirItem} : Reached source v d → v.names d = .ok items → .name n ∈ items →
      skipped source n = false → v.lookup (join d n) = .ok .directory → Reached source v (join d n)

/-- What stands below the root, but not at or below a reserved name. -/
def OnDisk (source : Source) (v : Volume Id) (relative : Str) (place : Place) : Prop :=
  ∃ d n items, Reached source v d ∧ v.names d = .ok items ∧ .name n ∈ items ∧ skipped source n = false ∧
    relative = join d n ∧ v.lookup relative = .ok place

/-- Tracked, or neither ignored nor below an ignored path. -/
def Visible (rules : IgnoreRules) (prior : Manifest Id) (path : RepoPath) : Prop :=
  (prior.entries.get? path).isSome ∨
    (rules.ignored path.asStr = false ∧ ∀ a ∈ path.ancestors, rules.ignored a.asStr = false)

/-- An ignored directory that leads to no tracked path. -/
def Dark (rules : IgnoreRules) (prior : Manifest Id) (path : RepoPath) : Prop :=
  path.Valid ∧ rules.ignored path.asStr = true ∧ Untrodden prior path

/-- Such a directory, or an ignored, untracked file or link. -/
def Overlooked (rules : IgnoreRules) (prior : Manifest Id) (path : RepoPath) : Place → Prop
  | .directory => Dark rules prior path
  | .file _ => rules.ignored path.asStr = true ∧ prior.entries.get? path = none
  | .special => False

/-- Overlooked, or anything inside a dark directory. -/
def Hidden (rules : IgnoreRules) (prior : Manifest Id) (relative : Str) (place : Place) : Prop :=
  (∃ a, Dark rules prior a ∧ (a.asStr ++ [slash]).isPrefixOf relative = true) ∨
    ∃ path, RepoPath.parse relative = some path ∧ Overlooked rules prior path place

/-! ### One directory at rest -/

section resting
variable {d : Str} {item : DirItem} {items : List DirItem} {dirs : List Str}

/-- What a listing of a tree names is there. -/
def Present (v : Volume Id) (d : Str) (item : DirItem) : Prop :=
  item = .nonUtf8 ∨ ∃ n place, item = .name n ∧ slash ∉ n ∧ v.lookup (join d n) = .ok place

/-- A name outside the path model, or a special file. -/
def Obstacle (source : Source) (v : Volume Id) (d : Str) (item : DirItem) : Prop :=
  item = .nonUtf8 ∨ ∃ n, item = .name n ∧ skipped source n = false ∧
    (RepoPath.parse (join d n) = none ∨ v.lookup (join d n) = .ok .special)

/-- What a walk makes of an item in its way. -/
def Shows (source : Source) (rules : IgnoreRules) (prior : Manifest Id) (v : Volume Id) (d : Str)
    (item : DirItem) : Listed → Prop
  | .nothing => True
  | .found found => ∃ n file, item = .name n ∧ skipped source n = false ∧ found.relative = join d n ∧
      RepoPath.parse (join d n) = some found.path ∧ v.lookup (join d n) = .ok (.file file) ∧
      found.stat = file.stat ∧ untrackedIgnored rules prior found.path false = false
  | .subdirectory r => ∃ n path, item = .name n ∧ skipped source n = false ∧ r = join d n ∧
      RepoPath.parse (join d n) = some path ∧ v.lookup (join d n) = .ok .directory ∧
      untrackedIgnored rules prior path true = false

variable (rules prior)

theorem listItem_obstacle (h : Obstacle source v d item) :
    ∃ e, (listItem source rules prior d item).alone v = (.error e, v) := by
  rcases h with rfl | ⟨n, rfl, hskip, hno⟩
  · exact ⟨_, rfl⟩
  · unfold listItem
    dsimp only
    rw [if_neg (by rw [hskip]; exact Bool.false_ne_true)]
    cases hparse : RepoPath.parse (join d n) with
    | none => exact ⟨_, rfl⟩
    | some path =>
        rcases hno with hnone | hspecial
        · rw [hparse] at hnone
          cases hnone
        · refine ⟨.unsupported (join d n), ?_⟩
          dsimp only
          rw [Process.alone_read, hspecial]

theorem listItem_clear (hitem : Present v d item) (h : ¬ Obstacle source v d item) :
    ∃ listed, (listItem source rules prior d item).alone v = (.ok listed, v) ∧
      ∀ x, x ≠ .nothing → (listed = x ↔ Shows source rules prior v d item x) := by
  rcases hitem with rfl | ⟨n, place, rfl, _, hat⟩
  · exact absurd (Or.inl rfl) h
  unfold listItem
  dsimp only
  cases hskip : skipped source n with
  | true =>
      refine ⟨.nothing, rfl, fun x hx => ⟨fun he => absurd he.symm hx, fun hs => ?_⟩⟩
      cases x with
      | nothing => exact absurd rfl hx
      | found found =>
          obtain ⟨m, _, hm, hno, _⟩ := hs
          cases hm
          rw [hskip] at hno
          cases hno
      | subdirectory r =>
          obtain ⟨m, _, hm, hno, _⟩ := hs
          cases hm
          rw [hskip] at hno
          cases hno
  | false =>
      rw [if_neg Bool.false_ne_true]
      cases hparse : RepoPath.parse (join d n) with
      | none => exact absurd (Or.inr ⟨n, rfl, hskip, Or.inl hparse⟩) h
      | some path =>
          dsimp only
          rw [Process.alone_read, hat]
          cases place with
          | special => exact absurd (Or.inr ⟨n, rfl, hskip, Or.inr hat⟩) h
          | directory =>
              refine ⟨_, rfl, fun x hx => ?_⟩
              cases x with
              | nothing => exact absurd rfl hx
              | found found =>
                  constructor
                  · intro he
                    split at he <;> cases he
                  · rintro ⟨m, file, hm, _, _, _, hfile, _⟩
                    cases hm
                    rw [hat] at hfile
                    cases hfile
              | subdirectory r =>
                  constructor
                  · intro he
                    split at he
                    · cases he
                    · rename_i hseen
                      cases he
                      exact ⟨n, path, rfl, hskip, rfl, hparse, hat, Bool.eq_false_of_not_eq_true hseen⟩
                  · rintro ⟨m, q, hm, _, rfl, hq, _, hseen⟩
                    cases hm
                    rw [hparse] at hq
                    cases hq
                    rw [if_neg (by rw [hseen]; exact Bool.false_ne_true)]
          | file file =>
              refine ⟨_, rfl, fun x hx => ?_⟩
              cases x with
              | nothing => exact absurd rfl hx
              | subdirectory r =>
                  constructor
                  · intro he
                    split at he <;> cases he
                  · rintro ⟨m, q, hm, _, _, _, hdir, _⟩
                    cases hm
                    rw [hat] at hdir
                    cases hdir
              | found found =>
                  constructor
                  · intro he
                    split at he
                    · cases he
                    · rename_i hseen
                      cases he
                      exact ⟨n, file, rfl, hskip, rfl, hparse, hat, rfl, Bool.eq_false_of_not_eq_true hseen⟩
                  · obtain ⟨relative, q, stat⟩ := found
                    rintro ⟨m, file', hm, _, hr, hq, hfile, hstat, hseen⟩
                    cases hm
                    dsimp only at hr hq hstat hseen
                    rw [hparse] at hq
                    rw [hat] at hfile
                    cases hq
                    cases hfile
                    rw [if_neg (by rw [hseen]; exact Bool.false_ne_true), hr, hstat]

theorem listItems_obstacle (hitems : ∀ item ∈ items, Present v d item)
    (h : ∃ item ∈ items, Obstacle source v d item) :
    ∃ e, (listItems source rules prior d items).alone v = (.error e, v) := by
  induction items with
  | nil =>
      obtain ⟨_, hm, _⟩ := h
      cases hm
  | cons item items ih =>
      unfold listItems
      by_cases hfirst : Obstacle source v d item
      · obtain ⟨e, he⟩ := listItem_obstacle rules prior hfirst
        exact ⟨e, Process.alone_bind_of_error he⟩
      · obtain ⟨listed, hlisted, _⟩ := listItem_clear rules prior (hitems item List.mem_cons_self) hfirst
        obtain ⟨e, he⟩ := ih (fun i hi => hitems i (List.mem_cons_of_mem _ hi)) (by
          obtain ⟨i, hi, ho⟩ := h
          rcases List.mem_cons.mp hi with rfl | hi
          · exact absurd ho hfirst
          · exact ⟨i, hi, ho⟩)
        refine ⟨e, ?_⟩
        rw [Process.alone_bind_of_ok hlisted, Process.alone_bind_of_error he]

theorem listItems_clear (hitems : ∀ item ∈ items, Present v d item)
    (h : ∀ item ∈ items, ¬ Obstacle source v d item) :
    ∃ listed, (listItems source rules prior d items).alone v = (.ok listed, v) ∧
      ∀ x, x ≠ .nothing → (x ∈ listed ↔ ∃ item ∈ items, Shows source rules prior v d item x) := by
  induction items with
  | nil => exact ⟨[], rfl, fun x _ => by simp⟩
  | cons item items ih =>
      obtain ⟨first, hfirst, hshows⟩ := listItem_clear rules prior (hitems item List.mem_cons_self)
        (h item List.mem_cons_self)
      obtain ⟨rest, hrest, hmem⟩ := ih (fun i hi => hitems i (List.mem_cons_of_mem _ hi))
        (fun i hi => h i (List.mem_cons_of_mem _ hi))
      refine ⟨first :: rest, ?_, fun x hx => ?_⟩
      · unfold listItems
        rw [Process.alone_bind_of_ok hfirst, Process.alone_bind_of_ok hrest]
        rfl
      · rw [List.mem_cons, hmem x hx, List.exists_mem_cons_iff, ← hshows x hx]
        exact or_congr_left eq_comm

/-- A directory that a walk cannot list. -/
def Blocked (source : Source) (v : Volume Id) (d : Str) : Prop :=
  ∃ items, v.names d = .ok items ∧ ∃ item ∈ items, Obstacle source v d item

def Displays (source : Source) (rules : IgnoreRules) (prior : Manifest Id) (v : Volume Id) (d : Str)
    (x : Listed) : Prop :=
  ∃ items, v.names d = .ok items ∧ ∃ item ∈ items, Shows source rules prior v d item x

theorem list_eq (h : v.names d = .ok items) :
    (list source rules prior d).alone v = (listItems source rules prior d items).alone v := by
  unfold list
  refine Process.alone_bind_of_ok ?_
  rw [Process.alone_read, h]

theorem list_blocked (hv : Tree v) (hd : v.lookup d = .ok .directory) (h : Blocked source v d) :
    ∃ e, (list source rules prior d).alone v = (.error e, v) := by
  obtain ⟨items, hitems, hobstacle⟩ := h
  obtain ⟨items', hitems', hpresent⟩ := hv.names d hd
  rw [hitems] at hitems'
  cases hitems'
  rw [list_eq rules prior hitems]
  exact listItems_obstacle rules prior hpresent hobstacle

theorem list_clear (hv : Tree v) (hd : v.lookup d = .ok .directory) (h : ¬ Blocked source v d) :
    ∃ listed, (list source rules prior d).alone v = (.ok listed, v) ∧
      ∀ x, x ≠ .nothing → (x ∈ listed ↔ Displays source rules prior v d x) := by
  obtain ⟨items, hitems, hpresent⟩ := hv.names d hd
  obtain ⟨listed, hlisted, hmem⟩ := listItems_clear rules prior hpresent
    (fun item hi ho => h ⟨items, hitems, item, hi, ho⟩)
  rw [list_eq rules prior hitems]
  refine ⟨listed, hlisted, fun x hx => (hmem x hx).trans ⟨fun he => ⟨items, hitems, he⟩, ?_⟩⟩
  rintro ⟨items', hitems', he⟩
  rw [hitems] at hitems'
  cases hitems'
  exact he

theorem listAll_blocked (hv : Tree v) (hdirs : ∀ d ∈ dirs, v.lookup d = .ok .directory)
    (h : ∃ d ∈ dirs, Blocked source v d) : ∃ e, (listAll source rules prior dirs).alone v = (.error e, v) := by
  induction dirs with
  | nil =>
      obtain ⟨_, hm, _⟩ := h
      cases hm
  | cons d dirs ih =>
      unfold listAll
      by_cases hfirst : Blocked source v d
      · obtain ⟨e, he⟩ := list_blocked rules prior hv (hdirs d List.mem_cons_self) hfirst
        exact ⟨e, Process.alone_bind_of_error he⟩
      · obtain ⟨listed, hlisted, _⟩ := list_clear rules prior hv (hdirs d List.mem_cons_self) hfirst
        obtain ⟨e, he⟩ := ih (fun i hi => hdirs i (List.mem_cons_of_mem _ hi)) (by
          obtain ⟨i, hi, ho⟩ := h
          rcases List.mem_cons.mp hi with rfl | hi
          · exact absurd ho hfirst
          · exact ⟨i, hi, ho⟩)
        refine ⟨e, ?_⟩
        rw [Process.alone_bind_of_ok hlisted, Process.alone_bind_of_error he]

theorem listAll_clear (hv : Tree v) (hdirs : ∀ d ∈ dirs, v.lookup d = .ok .directory)
    (h : ∀ d ∈ dirs, ¬ Blocked source v d) :
    ∃ listed, (listAll source rules prior dirs).alone v = (.ok listed, v) ∧
      ∀ x, x ≠ .nothing → (x ∈ listed ↔ ∃ d ∈ dirs, Displays source rules prior v d x) := by
  induction dirs with
  | nil => exact ⟨[], rfl, fun x _ => by simp⟩
  | cons d dirs ih =>
      obtain ⟨first, hfirst, hshows⟩ := list_clear rules prior hv (hdirs d List.mem_cons_self)
        (h d List.mem_cons_self)
      obtain ⟨rest, hrest, hmem⟩ := ih (fun i hi => hdirs i (List.mem_cons_of_mem _ hi))
        (fun i hi => h i (List.mem_cons_of_mem _ hi))
      refine ⟨first ++ rest, ?_, fun x hx => ?_⟩
      · unfold listAll
        rw [Process.alone_bind_of_ok hfirst, Process.alone_bind_of_ok hrest]
        rfl
      · rw [List.mem_append, hmem x hx, hshows x hx, List.exists_mem_cons_iff]

/-! ### Level by level -/

/-- A walk that lists the one goes on to the other. -/
def Sub (source : Source) (rules : IgnoreRules) (prior : Manifest Id) (v : Volume Id) (d r : Str) : Prop :=
  Displays source rules prior v d (.subdirectory r)

/-- Below a directory that a walk lists, and itself. -/
abbrev Subs (source : Source) (rules : IgnoreRules) (prior : Manifest Id) (v : Volume Id) : Str → Str → Prop :=
  Relation.ReflTransGen (Sub source rules prior v)

theorem Sub.directory {rules : IgnoreRules} {prior : Manifest Id} {d r : Str} (h : Sub source rules prior v d r) :
    v.lookup r = .ok .directory := by
  obtain ⟨items, _, item, _, n, path, _, _, rfl, _, hdir, _⟩ := h
  exact hdir

theorem walkLevels_succ {levels : ℕ} (hne : dirs ≠ []) : walkLevels source rules prior (levels + 1) dirs =
    (do
      let listed ← listAll source rules prior dirs
      let below ← walkLevels source rules prior levels (subdirectories listed)
      pure (files listed ++ below) : Scanning Id (List Found)) := by
  cases dirs with
  | nil => exact absurd rfl hne
  | cons d dirs => rfl

theorem walkLevels_blocked (hv : Tree v) {d' : Str} (hsubs : Subs source rules prior v d d')
    (h : Blocked source v d') : ∃ n, ∀ levels dirs, n < levels → (∀ d ∈ dirs, v.lookup d = .ok .directory) →
      d ∈ dirs → ∃ e, (walkLevels source rules prior levels dirs).alone v = (.error e, v) := by
  induction hsubs using Relation.ReflTransGen.head_induction_on with
  | refl =>
      refine ⟨0, fun levels dirs hlevels hdirs hd => ?_⟩
      obtain ⟨levels, rfl⟩ := Nat.exists_eq_succ_of_ne_zero (by omega : levels ≠ 0)
      obtain ⟨e, he⟩ := listAll_blocked rules prior hv hdirs ⟨_, hd, h⟩
      rw [walkLevels_succ rules prior (List.ne_nil_of_mem hd)]
      exact ⟨e, Process.alone_bind_of_error he⟩
  | @head d₀ d₁ hsub _ ih =>
      obtain ⟨n, hn⟩ := ih
      refine ⟨n + 1, fun levels dirs hlevels hdirs hd => ?_⟩
      obtain ⟨levels, rfl⟩ := Nat.exists_eq_succ_of_ne_zero (by omega : levels ≠ 0)
      rw [walkLevels_succ rules prior (List.ne_nil_of_mem hd)]
      by_cases hblocked : ∃ d ∈ dirs, Blocked source v d
      · obtain ⟨e, he⟩ := listAll_blocked rules prior hv hdirs hblocked
        exact ⟨e, Process.alone_bind_of_error he⟩
      · obtain ⟨listed, hlisted, hmem⟩ := listAll_clear rules prior hv hdirs
          (fun d hd hb => hblocked ⟨d, hd, hb⟩)
        have hsubdirectories : ∀ r, r ∈ subdirectories listed ↔ ∃ d ∈ dirs, Sub source rules prior v d r :=
          fun r => mem_subdirectories.trans (hmem _ (by simp))
        obtain ⟨e, he⟩ := hn levels (subdirectories listed) (by omega)
          (fun r hr => by
            obtain ⟨_, _, hsub⟩ := (hsubdirectories r).mp hr
            exact hsub.directory)
          ((hsubdirectories d₁).mpr ⟨d₀, hd, hsub⟩)
        refine ⟨e, ?_⟩
        rw [Process.alone_bind_of_ok hlisted, Process.alone_bind_of_error he]

/-- Every directory on the way can be listed. -/
def Passable (source : Source) (rules : IgnoreRules) (prior : Manifest Id) (v : Volume Id) (dirs : List Str) :
    Prop :=
  ∀ d ∈ dirs, v.lookup d = .ok .directory ∧ ∀ d', Subs source rules prior v d d' → ¬ Blocked source v d'

theorem listAll_passable (hv : Tree v) (h : Passable source rules prior v dirs) :
    ∃ listed, (listAll source rules prior dirs).alone v = (.ok listed, v) ∧
      (∀ x, x ≠ .nothing → (x ∈ listed ↔ ∃ d ∈ dirs, Displays source rules prior v d x)) ∧
      Passable source rules prior v (subdirectories listed) := by
  obtain ⟨listed, hlisted, hmem⟩ := listAll_clear rules prior hv (fun d hd => (h d hd).1)
    (fun d hd => (h d hd).2 d .refl)
  refine ⟨listed, hlisted, hmem, fun r hr => ?_⟩
  obtain ⟨d, hd, hsub⟩ := (hmem (.subdirectory r) (by simp)).mp (mem_subdirectories.mp hr)
  have hsub : Sub source rules prior v d r := hsub
  exact ⟨hsub.directory, fun d' hd' => (h d hd).2 d' (.head hsub hd')⟩

theorem walkLevels_passable (hv : Tree v) (levels : ℕ) (h : Passable source rules prior v dirs) :
    ∃ founds, (walkLevels source rules prior levels dirs).alone v = (.ok founds, v) ∧
      ∀ found ∈ founds, ∃ d ∈ dirs, ∃ d', Subs source rules prior v d d' ∧
        Displays source rules prior v d' (.found found) := by
  induction levels generalizing dirs with
  | zero =>
      refine ⟨[], ?_, fun _ hm => by cases hm⟩
      cases dirs <;> rfl
  | succ levels ih =>
      by_cases hne : dirs = []
      · subst hne
        exact ⟨[], rfl, fun _ hm => by cases hm⟩
      · obtain ⟨listed, hlisted, hmem, hpassable⟩ := listAll_passable rules prior hv h
        obtain ⟨below, hbelow, hfrom⟩ := ih hpassable
        refine ⟨files listed ++ below, ?_, fun found hm => ?_⟩
        · rw [walkLevels_succ rules prior hne, Process.alone_bind_of_ok hlisted, Process.alone_bind_of_ok hbelow]
          rfl
        · rcases List.mem_append.mp hm with hm | hm
          · obtain ⟨d, hd, hshows⟩ := (hmem _ (by simp)).mp (mem_files.mp hm)
            exact ⟨d, hd, d, .refl, hshows⟩
          · obtain ⟨r, hr, d', hd', hshows⟩ := hfrom found hm
            obtain ⟨d, hd, hsub⟩ := (hmem (.subdirectory r) (by simp)).mp (mem_subdirectories.mp hr)
            exact ⟨d, hd, d', .head hsub hd', hshows⟩

theorem walkLevels_complete (hv : Tree v) {d' : Str} {found : Found} (hsubs : Subs source rules prior v d d')
    (hshows : Displays source rules prior v d' (.found found)) :
    ∃ n, ∀ levels dirs founds, n < levels → Passable source rules prior v dirs → d ∈ dirs →
      (walkLevels source rules prior levels dirs).alone v = (.ok founds, v) → found ∈ founds := by
  induction hsubs using Relation.ReflTransGen.head_induction_on with
  | refl =>
      refine ⟨0, fun levels dirs founds hlevels hpass hd hwalk => ?_⟩
      obtain ⟨levels, rfl⟩ := Nat.exists_eq_succ_of_ne_zero (by omega : levels ≠ 0)
      obtain ⟨listed, hlisted, hmem, hpassable⟩ := listAll_passable rules prior hv hpass
      obtain ⟨below, hbelow, _⟩ := walkLevels_passable rules prior hv levels hpassable
      rw [walkLevels_succ rules prior (List.ne_nil_of_mem hd), Process.alone_bind_of_ok hlisted,
        Process.alone_bind_of_ok hbelow] at hwalk
      cases hwalk
      exact List.mem_append_left _ (mem_files.mpr ((hmem _ (by simp)).mpr ⟨_, hd, hshows⟩))
  | @head d₀ d₁ hsub _ ih =>
      obtain ⟨n, hn⟩ := ih
      refine ⟨n + 1, fun levels dirs founds hlevels hpass hd hwalk => ?_⟩
      obtain ⟨levels, rfl⟩ := Nat.exists_eq_succ_of_ne_zero (by omega : levels ≠ 0)
      obtain ⟨listed, hlisted, hmem, hpassable⟩ := listAll_passable rules prior hv hpass
      obtain ⟨below, hbelow, _⟩ := walkLevels_passable rules prior hv levels hpassable
      rw [walkLevels_succ rules prior (List.ne_nil_of_mem hd), Process.alone_bind_of_ok hlisted,
        Process.alone_bind_of_ok hbelow] at hwalk
      cases hwalk
      refine List.mem_append_right _ (hn levels _ below (by omega) hpassable ?_ hbelow)
      exact mem_subdirectories.mpr ((hmem (.subdirectory d₁) (by simp)).mpr ⟨d₀, hd, hsub⟩)

/-- A walk fails at any directory that it visits and cannot list. -/
theorem walk_blocked (hv : Tree v) (hsubs : Subs source rules prior v [] d) (h : Blocked source v d) :
    ∃ e, (walk source rules prior).alone v = (.error e, v) := by
  obtain ⟨n, hn⟩ := walkLevels_blocked rules prior hv hsubs h
  rw [← walk_levels (n + 1)]
  refine hn _ [[]] (by omega) (fun d hd => ?_) List.mem_cons_self
  obtain rfl := List.mem_singleton.mp hd
  exact hv.root

/-- A walk that fails nowhere finds what the directories that it visits hold. -/
theorem walk_passable (hv : Tree v) (h : ∀ d, Subs source rules prior v [] d → ¬ Blocked source v d) :
    ∃ founds, (walk source rules prior).alone v = (.ok founds, v) ∧
      ∀ found, found ∈ founds ↔ ∃ d, Subs source rules prior v [] d ∧
        Displays source rules prior v d (.found found) := by
  have hpass : Passable source rules prior v [[]] := by
    intro d hd
    obtain rfl := List.mem_singleton.mp hd
    exact ⟨hv.root, h⟩
  obtain ⟨founds, hfounds, hfrom⟩ := walkLevels_passable rules prior hv (MAX_DEPTH + 1) hpass
  refine ⟨founds, hfounds, fun found => ⟨fun hm => ?_, ?_⟩⟩
  · obtain ⟨d, hd, d', hsubs, hshows⟩ := hfrom found hm
    obtain rfl := List.mem_singleton.mp hd
    exact ⟨d', hsubs, hshows⟩
  · rintro ⟨d, hsubs, hshows⟩
    obtain ⟨n, hn⟩ := walkLevels_complete rules prior hv hsubs hshows
    refine hn (MAX_DEPTH + 1 + (n + 1)) [[]] founds (by omega) hpass List.mem_cons_self ?_
    rw [walk_levels]
    exact hfounds

end resting


/-! ### The visited directories -/

section visiting
variable {d : Str}

theorem join_of_ne_nil (h : d ≠ []) (n : Str) : join d n = d ++ slash :: n := by
  unfold join
  rw [if_neg (by rw [List.isEmpty_iff]; exact h)]

theorem parse_nil : RepoPath.parse [] = none := by
  cases h : RepoPath.parse [] with
  | none => rfl
  | some path =>
      obtain ⟨hvalid, hstr⟩ := RepoPath.parse_eq_ok.mp h
      exact absurd (joinNames_eq_nil hstr) hvalid.1

theorem Dark.below {a q : RepoPath} (h : Dark rules prior a) (hq : q.Valid) (ha : a ∈ q.ancestors) :
    Dark rules prior q :=
  ⟨hq, ignored_below h.2.1 ha, fun p hp hm => h.2.2 p hp (RepoPath.ancestors_trans ha hm)⟩

/-- A walk visits the directories that are not dark. -/
theorem visited_iff : Subs source rules prior v [] d ↔ Reached source v d ∧
    (d = [] ∨ ∃ q, RepoPath.parse d = some q ∧ ¬ Dark rules prior q) := by
  constructor
  · intro h
    induction h with
    | refl => exact ⟨.root, Or.inl rfl⟩
    | tail _ hsub ih =>
        obtain ⟨items, hitems, item, hitem, n, path, rfl, hskip, rfl, hpath, hdir, hseen⟩ := hsub
        refine ⟨ih.1.item hitems hitem hskip hdir, Or.inr ⟨path, hpath, fun hdark => ?_⟩⟩
        rw [(untrackedIgnored_dir hdark.1.1).mpr hdark.2] at hseen
        cases hseen
  · rintro ⟨hreached, hopen⟩
    induction hreached with
    | root => exact .refl
    | @item d n items _ hitems hitem hskip hdir ih =>
        rcases hopen with hnil | ⟨q, hq, hlight⟩
        · rw [hnil]
        have hvalid := (RepoPath.parse_eq_ok.mp hq).1
        refine .tail (ih ?_) ⟨items, hitems, _, hitem, n, q, rfl, hskip, rfl, hq, hdir, ?_⟩
        · by_cases hd : d = []
          · exact Or.inl hd
          · rw [join_of_ne_nil hd] at hq
            obtain ⟨a, ha, hm⟩ := RepoPath.parse_directory hq
            exact Or.inr ⟨a, ha, fun hdark => hlight (hdark.below hvalid hm)⟩
        · rw [← Bool.not_eq_true, untrackedIgnored_dir hvalid.1]
          exact fun h => hlight ⟨hvalid, h⟩

theorem Hidden.join (h : Hidden rules prior d .directory) (n : Str) (place : Place) :
    Hidden rules prior (join d n) place := by
  rcases h with ⟨a, ha, hprefix⟩ | ⟨path, hpath, hdark⟩
  · have hd : d ≠ [] := by
      rintro rfl
      rw [List.isPrefixOf_iff_prefix, List.prefix_nil] at hprefix
      simp at hprefix
    refine Or.inl ⟨a, ha, ?_⟩
    rw [join_of_ne_nil hd]
    rw [List.isPrefixOf_iff_prefix] at hprefix ⊢
    exact hprefix.trans (List.prefix_append _ _)
  · obtain ⟨hvalid, rfl⟩ := RepoPath.parse_eq_ok.mp hpath
    have hd : path.asStr ≠ [] := fun he => hvalid.1 (joinNames_eq_nil he)
    refine Or.inl ⟨path, hdark, ?_⟩
    rw [join_of_ne_nil hd, List.isPrefixOf_iff_prefix]
    exact ⟨n, by rw [List.append_assoc]; rfl⟩

theorem not_hidden_of_visited (h : Subs source rules prior v [] d) : ¬ Hidden rules prior d .directory := by
  obtain ⟨_, hopen⟩ := visited_iff.mp h
  rcases hopen with rfl | ⟨q, hq, hlight⟩
  · rintro (⟨a, _, hprefix⟩ | ⟨path, hpath, _⟩)
    · rw [List.isPrefixOf_iff_prefix, List.prefix_nil] at hprefix
      simp at hprefix
    · rw [parse_nil] at hpath
      cases hpath
  · obtain ⟨hvalid, rfl⟩ := RepoPath.parse_eq_ok.mp hq
    rintro (⟨a, ha, hprefix⟩ | ⟨path, hpath, hdark⟩)
    · exact hlight (ha.below hvalid ((RepoPath.below_iff ha.1.1).mp hprefix))
    · rw [hq] at hpath
      cases hpath
      exact hlight hdark

/-- An item of a visited directory that is hidden has its own name in the path model, and is no special file. -/
theorem hidden_item {n : Str} {place : Place} (hvisited : Subs source rules prior v [] d) (hslash : slash ∉ n)
    (h : Hidden rules prior (join d n) place) :
    ∃ path, RepoPath.parse (join d n) = some path ∧ Overlooked rules prior path place := by
  rcases h with ⟨a, ha, hprefix⟩ | h
  · exfalso
    rw [List.isPrefixOf_iff_prefix] at hprefix
    obtain ⟨t, ht⟩ := hprefix
    rw [List.append_assoc, List.singleton_append] at ht
    by_cases hd : d = []
    · subst hd
      rw [show join [] n = n from rfl] at ht
      apply hslash
      rw [← ht]
      simp
    · rw [join_of_ne_nil hd] at ht
      apply not_hidden_of_visited hvisited
      rcases List.append_eq_append_iff.mp ht with ⟨c, hd', hc⟩ | ⟨c, ha', hc⟩
      · cases c with
        | nil =>
            rw [List.append_nil] at hd'
            exact Or.inr ⟨a, RepoPath.parse_eq_ok.mpr ⟨ha.1, hd'.symm⟩, ha⟩
        | cons b c =>
            obtain ⟨rfl, _⟩ := List.cons.inj hc
            refine Or.inl ⟨a, ha, ?_⟩
            rw [List.isPrefixOf_iff_prefix, hd']
            exact ⟨c, by rw [List.append_assoc]; rfl⟩
      · cases c with
        | nil =>
            rw [List.append_nil] at ha'
            exact Or.inr ⟨a, RepoPath.parse_eq_ok.mpr ⟨ha.1, ha'⟩, ha⟩
        | cons b c =>
            obtain ⟨rfl, hn⟩ := List.cons.inj hc
            exact absurd (by rw [hn]; simp) hslash
  · exact h

/-- Whatever is not hidden has a name in the path model and is no special file. -/
structure Clear (source : Source) (rules : IgnoreRules) (prior : Manifest Id) (v : Volume Id) : Prop where
  entries : ∀ relative place, OnDisk source v relative place → ¬ Hidden rules prior relative place →
    RepoPath.parse relative ≠ none ∧ place ≠ .special
  utf8 : ∀ d items, Reached source v d → ¬ Hidden rules prior d .directory → v.names d = .ok items →
    .nonUtf8 ∉ items

/-- A walk gets to every directory that is not hidden, or fails on the way. -/
theorem visited_or_blocked (hreached : Reached source v d) (h : ¬ Hidden rules prior d .directory) :
    Subs source rules prior v [] d ∨ ∃ d', Subs source rules prior v [] d' ∧ Blocked source v d' := by
  induction hreached with
  | root => exact Or.inl .refl
  | @item d n items hreached hitems hitem hskip hdir ih =>
      rcases ih (fun hd => h (hd.join n .directory)) with hvisited | hblocked
      · cases hparse : RepoPath.parse (join d n) with
        | none => exact Or.inr ⟨d, hvisited, items, hitems, _, hitem, Or.inr ⟨n, rfl, hskip, Or.inl hparse⟩⟩
        | some path =>
            refine Or.inl (visited_iff.mpr ⟨hreached.item hitems hitem hskip hdir, Or.inr ⟨path, hparse, ?_⟩⟩)
            exact fun hdark => h (Or.inr ⟨path, hparse, hdark⟩)
      · exact Or.inr hblocked

/-- A walk fails at nothing if and only if what is not hidden is clear. -/
theorem not_blocked_iff (hv : Tree v) : (∀ d, Subs source rules prior v [] d → ¬ Blocked source v d) ↔
    Clear source rules prior v := by
  constructor
  · intro h
    have hvisit : ∀ d, Reached source v d → ¬ Hidden rules prior d .directory → ¬ Blocked source v d := by
      intro d hreached hshown
      rcases visited_or_blocked hreached hshown with hvisited | ⟨d', hvisited, hblocked⟩
      · exact h d hvisited
      · exact absurd hblocked (h d' hvisited)
    constructor
    · rintro _ place ⟨d, n, items, hreached, hitems, hitem, hskip, rfl, hat⟩ hshown
      have hclear := hvisit d hreached (fun hd => hshown (hd.join n place))
      refine ⟨fun hnone => hclear ⟨items, hitems, _, hitem, Or.inr ⟨n, rfl, hskip, Or.inl hnone⟩⟩, ?_⟩
      rintro rfl
      exact hclear ⟨items, hitems, _, hitem, Or.inr ⟨n, rfl, hskip, Or.inr hat⟩⟩
    · intro d items hreached hshown hitems hitem
      exact hvisit d hreached hshown ⟨items, hitems, _, hitem, Or.inl rfl⟩
  · intro h d hvisited
    obtain ⟨hreached, _⟩ := visited_iff.mp hvisited
    have hshown := not_hidden_of_visited hvisited
    rintro ⟨items, hitems, item, hitem, rfl | ⟨n, rfl, hskip, hno⟩⟩
    · exact h.utf8 d items hreached hshown hitems hitem
    · have hdir : v.lookup d = .ok .directory := by
        cases hreached with
        | root => exact hv.root
        | item _ _ _ _ hdir => exact hdir
      obtain ⟨items', hitems', hpresent⟩ := hv.names d hdir
      rw [hitems] at hitems'
      cases hitems'
      rcases hpresent _ hitem with hutf8 | ⟨m, place, hm, hslash, hat⟩
      · cases hutf8
      · cases hm
        have hon : OnDisk source v (join d n) place := ⟨d, n, items, hreached, hitems, hitem, hskip, rfl, hat⟩
        by_cases hhidden : Hidden rules prior (join d n) place
        · obtain ⟨path, hpath, hover⟩ := hidden_item hvisited hslash hhidden
          rcases hno with hnone | hspecial
          · rw [hpath] at hnone
            cases hnone
          · rw [hat] at hspecial
            cases hspecial
            exact hover
        · obtain ⟨hsome, hkind⟩ := h.entries _ place hon hhidden
          rcases hno with hnone | hspecial
          · exact hsome hnone
          · rw [hat] at hspecial
            cases hspecial
            exact hkind rfl

/-- Whether a walk of a tree succeeds, and what it finds. -/
theorem walk_ok_iff (hv : Tree v) :
    (∃ founds, (walk source rules prior).alone v = (.ok founds, v)) ↔ Clear source rules prior v := by
  rw [← not_blocked_iff hv]
  constructor
  · rintro ⟨founds, hfounds⟩ d hvisited hblocked
    obtain ⟨e, he⟩ := walk_blocked rules prior hv hvisited hblocked
    rw [hfounds] at he
    cases he
  · intro h
    obtain ⟨founds, hfounds, _⟩ := walk_passable rules prior hv h
    exact ⟨founds, hfounds⟩

theorem Visible.light {path a : RepoPath} (h : Visible rules prior path) (ha : a ∈ path.ancestors) :
    ¬ Dark rules prior a := by
  rintro ⟨_, hignored, huntrodden⟩
  rcases h with htracked | ⟨_, habove⟩
  · exact huntrodden path (SortedMap.mem_keys.mpr htracked) ha
  · rw [habove a ha] at hignored
    cases hignored

theorem visible_iff {path : RepoPath} :
    Visible rules prior path ↔ untrackedIgnored rules prior path false = false := by
  rw [← Bool.not_eq_true, untrackedIgnored_file, not_and_or, Bool.not_eq_true, ← ne_eq, ← Option.isSome_iff_ne_none]
  constructor
  · exact fun h => h.symm.imp_left And.left
  · refine fun h => h.symm.imp_right (fun hno => ⟨hno, fun a ha => ?_⟩)
    by_contra hignored
    rw [ignored_below (Bool.not_eq_false _ ▸ hignored) ha] at hno
    cases hno

theorem mem_walk (hv : Tree v) {founds : List Found} (h : (walk source rules prior).alone v = (.ok founds, v))
    (found : Found) : found ∈ founds ↔ ∃ file, OnDisk source v found.relative (.file file) ∧
      RepoPath.parse found.relative = some found.path ∧ found.stat = file.stat ∧
        Visible rules prior found.path := by
  obtain ⟨founds', hfounds, hmem⟩ := walk_passable rules prior hv
    ((not_blocked_iff hv).mpr ((walk_ok_iff hv).mp ⟨_, h⟩))
  rw [h] at hfounds
  cases hfounds
  rw [hmem]
  constructor
  · rintro ⟨d, hvisited, items, hitems, item, hitem, n, file, rfl, hskip, hrelative, hpath, hat, hstat, hseen⟩
    rw [← hrelative] at hpath hat
    exact ⟨file, ⟨d, n, items, (visited_iff.mp hvisited).1, hitems, hitem, hskip, hrelative, hat⟩, hpath, hstat,
      visible_iff.mpr hseen⟩
  · rintro ⟨file, ⟨d, n, items, hreached, hitems, hitem, hskip, hrelative, hat⟩, hpath, hstat, hvisible⟩
    rw [hrelative] at hpath hat
    refine ⟨d, visited_iff.mpr ⟨hreached, ?_⟩, items, hitems, _, hitem, n, file, rfl, hskip, hrelative, hpath, hat,
      hstat, visible_iff.mp hvisible⟩
    by_cases hd : d = []
    · exact Or.inl hd
    · rw [join_of_ne_nil hd] at hpath
      obtain ⟨a, ha, hm⟩ := RepoPath.parse_directory hpath
      exact Or.inr ⟨a, ha, hvisible.light hm⟩

end visiting

/-! ### Two trees -/

/-- Two trees with the same entries, except for hidden ones. -/
structure Alike (source : Source) (rules : IgnoreRules) (prior : Manifest Id) (v v' : Volume Id) : Prop where
  entries : ∀ relative place, ¬ Hidden rules prior relative place →
    (OnDisk source v relative place ↔ OnDisk source v' relative place)
  utf8 : ∀ d, ¬ Hidden rules prior d .directory →
    ((Reached source v d ∧ ∃ items, v.names d = .ok items ∧ .nonUtf8 ∈ items) ↔
      (Reached source v' d ∧ ∃ items, v'.names d = .ok items ∧ .nonUtf8 ∈ items))

theorem Alike.symm (h : Alike source rules prior v v') : Alike source rules prior v' v :=
  ⟨fun r p hr => (h.entries r p hr).symm, fun d hd => (h.utf8 d hd).symm⟩

theorem Alike.clear (h : Alike source rules prior v v') (hc : Clear source rules prior v) :
    Clear source rules prior v' := by
  constructor
  · exact fun r place hon hshown => hc.entries r place ((h.entries r place hshown).mpr hon) hshown
  · intro d items hreached hshown hitems hitem
    obtain ⟨hreached', items', hitems', hitem'⟩ := (h.utf8 d hshown).mpr ⟨hreached, items, hitems, hitem⟩
    exact hc.utf8 d items' hreached' hshown hitems' hitem'

theorem not_hidden_of_visible {relative : Str} {path : RepoPath} {file : File}
    (hpath : RepoPath.parse relative = some path) (h : Visible rules prior path) :
    ¬ Hidden rules prior relative (.file file) := by
  obtain ⟨hvalid, rfl⟩ := RepoPath.parse_eq_ok.mp hpath
  rintro (⟨a, ha, hprefix⟩ | ⟨q, hq, hover⟩)
  · exact h.light ((RepoPath.below_iff ha.1.1).mp hprefix) ha
  · rw [hpath] at hq
    cases hq
    have hseen := visible_iff.mp h
    rw [untrackedIgnored_file.mpr hover] at hseen
    cases hseen

/-- A walk of a tree succeeds if and only if everything that is not hidden has a name in the path model and is no
special file.  Then it finds exactly the files and links that are tracked, or neither ignored nor below an ignored
path.  Trees that differ only in hidden entries give the same result. -/
theorem walk_hides (source : Source) (rules : IgnoreRules) (prior : Manifest Id) :
    (∀ v, Tree v →
      ((∃ founds, (walk source rules prior).alone v = (.ok founds, v)) ↔ Clear source rules prior v) ∧
      ∀ founds, (walk source rules prior).alone v = (.ok founds, v) → ∀ found, found ∈ founds ↔
        ∃ file, OnDisk source v found.relative (.file file) ∧ RepoPath.parse found.relative = some found.path ∧
          found.stat = file.stat ∧ Visible rules prior found.path) ∧
    ∀ v v', Tree v → Tree v' → Alike source rules prior v v' →
      ((∃ founds, (walk source rules prior).alone v = (.ok founds, v)) ↔
        ∃ founds, (walk source rules prior).alone v' = (.ok founds, v')) ∧
      ∀ founds founds', (walk source rules prior).alone v = (.ok founds, v) →
        (walk source rules prior).alone v' = (.ok founds', v') → ∀ found, found ∈ founds ↔ found ∈ founds' := by
  refine ⟨fun v hv => ⟨walk_ok_iff hv, fun founds h found => mem_walk hv h found⟩, ?_⟩
  intro v v' hv hv' h
  refine ⟨?_, fun founds founds' hfounds hfounds' found => ?_⟩
  · rw [walk_ok_iff hv, walk_ok_iff hv']
    exact ⟨h.clear, h.symm.clear⟩
  · rw [mem_walk hv hfounds, mem_walk hv' hfounds']
    refine exists_congr (fun file => ?_)
    constructor
    · rintro ⟨hon, hpath, hstat, hvisible⟩
      exact ⟨(h.entries _ _ (not_hidden_of_visible hpath hvisible)).mp hon, hpath, hstat, hvisible⟩
    · rintro ⟨hon, hpath, hstat, hvisible⟩
      exact ⟨(h.entries _ _ (not_hidden_of_visible hpath hvisible)).mpr hon, hpath, hstat, hvisible⟩

/-! ### A directory with an ignored entry -/

def aFile : File := ⟨⟨0, 0, 0, 0, 0⟩, false, none, .ok []⟩

/-- The file `a`, beside what is at `p`; if that is a directory, it holds a special file and a name that is not
UTF-8. -/
def beside (place : Option Place) : Volume ℕ where
  clock := 0
  lookup := fun r =>
    if r = [] then .ok .directory
    else if r = [97] then .ok (.file aFile)
    else match place with
      | none => .error .notFound
      | some place =>
          if r = [112] then .ok place
          else match place with
            | .directory => if r = [112, slash, 120] then .ok .special else .error .notFound
            | _ => .error .notFound
  names := fun r =>
    if r = [] then .ok (.name [97] :: if place.isSome then [.name [112]] else [])
    else match place with
      | some .directory => if r = [112] then .ok [.nonUtf8, .name [120]] else .error .notFound
      | _ => .error .notFound
  changed := fun _ => 0
  cache := none

theorem beside_none : Tree (beside none) := by
  refine ⟨rfl, fun d hd => ?_⟩
  have hnil : d = [] := by
    by_contra hne
    simp only [beside, if_neg hne] at hd
    split at hd <;> cases hd
  subst hnil
  refine ⟨_, rfl, fun item hitem => ?_⟩
  obtain rfl := List.mem_singleton.mp hitem
  exact Or.inr ⟨[97], _, rfl, by decide, rfl⟩

theorem beside_special : Tree (beside (some .special)) := by
  refine ⟨rfl, fun d hd => ?_⟩
  have hnil : d = [] := by
    by_contra hne
    simp only [beside, if_neg hne] at hd
    split at hd
    · cases hd
    · split at hd <;> cases hd
  subst hnil
  refine ⟨_, rfl, fun item hitem => ?_⟩
  rcases List.mem_pair.mp hitem with rfl | rfl
  · exact Or.inr ⟨[97], _, rfl, by decide, rfl⟩
  · exact Or.inr ⟨[112], _, rfl, by decide, rfl⟩

theorem beside_directory : Tree (beside (some .directory)) := by
  refine ⟨rfl, fun d hd => ?_⟩
  have hdir : d = [] ∨ d = [112] := by
    by_contra hne
    obtain ⟨hne, hp⟩ := not_or.mp hne
    simp only [beside, if_neg hne, if_neg hp] at hd
    split at hd
    · cases hd
    · split at hd <;> cases hd
  rcases hdir with rfl | rfl
  · refine ⟨_, rfl, fun item hitem => ?_⟩
    rcases List.mem_pair.mp hitem with rfl | rfl
    · exact Or.inr ⟨[97], _, rfl, by decide, rfl⟩
    · exact Or.inr ⟨[112], _, rfl, by decide, rfl⟩
  · refine ⟨_, rfl, fun item hitem => ?_⟩
    rcases List.mem_pair.mp hitem with rfl | rfl
    · exact Or.inl rfl
    · exact Or.inr ⟨[120], _, rfl, by decide, rfl⟩

theorem reached_beside_none {d : Str} (h : Reached .layer (beside none) d) : d = [] := by
  induction h with
  | root => rfl
  | item _ hitems hitem _ hdir ih =>
      subst ih
      cases hitems
      cases List.mem_singleton.mp hitem
      cases hdir

theorem reached_beside_directory {d : Str} (h : Reached .layer (beside (some .directory)) d) :
    d = [] ∨ d = [112] := by
  induction h with
  | root => exact Or.inl rfl
  | item _ hitems hitem _ hdir ih =>
      rcases ih with rfl | rfl
      · cases hitems
        rcases List.mem_pair.mp hitem with he | he
        · cases he
          cases hdir
        · cases he
          exact Or.inr rfl
      · cases hitems
        rcases List.mem_pair.mp hitem with he | he
        · cases he
        · cases he
          cases hdir

theorem dark_beside : Dark [[112]] (Manifest.empty : Manifest ℕ) ⟨[⟨[112], by decide⟩]⟩ :=
  ⟨by decide, rfl, fun p hp => by cases hp⟩

theorem alike_beside :
    Alike .layer [[112]] (Manifest.empty : Manifest ℕ) (beside none) (beside (some .directory)) := by
  constructor
  · intro r place hshown
    constructor
    · rintro ⟨d, n, items, hreached, hitems, hitem, _, rfl, hat⟩
      obtain rfl := reached_beside_none hreached
      cases hitems
      cases List.mem_singleton.mp hitem
      exact ⟨[], [97], _, .root, rfl, List.mem_cons_self, rfl, rfl, hat⟩
    · rintro ⟨d, n, items, hreached, hitems, hitem, _, rfl, hat⟩
      rcases reached_beside_directory hreached with rfl | rfl
      · cases hitems
        rcases List.mem_pair.mp hitem with he | he
        · cases he
          exact ⟨[], [97], _, .root, rfl, List.mem_cons_self, rfl, rfl, hat⟩
        · cases he
          cases hat
          exact absurd (Or.inr ⟨_, rfl, dark_beside⟩) hshown
      · exact absurd (Or.inl ⟨_, dark_beside, rfl⟩) hshown
  · intro d hshown
    constructor
    · rintro ⟨hreached, items, hitems, hitem⟩
      obtain rfl := reached_beside_none hreached
      cases hitems
      cases List.mem_singleton.mp hitem
    · rintro ⟨hreached, items, hitems, hitem⟩
      rcases reached_beside_directory hreached with rfl | rfl
      · cases hitems
        rcases List.mem_pair.mp hitem with he | he <;> cases he
      · exact absurd (Or.inr ⟨_, rfl, dark_beside⟩) hshown

/-- An ignored directory makes no difference, whatever it holds. -/
theorem walk_hides_beside : ∃ found founds,
    (walk .layer [[112]] Manifest.empty).alone (beside none) = (.ok [found], beside none) ∧
    (walk .layer [[112]] Manifest.empty).alone (beside (some .directory)) =
      (.ok founds, beside (some .directory)) ∧ ∀ f, f ∈ founds ↔ f = found := by
  obtain ⟨hok, hsame⟩ := (walk_hides .layer [[112]] (Manifest.empty : Manifest ℕ)).2 _ _ beside_none
    beside_directory alike_beside
  have hbare : (walk .layer [[112]] Manifest.empty).alone (beside none) =
      (.ok [⟨[97], ⟨[⟨[97], by decide⟩]⟩, aFile.stat⟩], beside none) := rfl
  obtain ⟨founds, hfounds⟩ := hok.mp ⟨_, hbare⟩
  refine ⟨_, founds, hbare, hfounds, fun f => ?_⟩
  rw [← hsame _ _ hbare hfounds f, List.mem_singleton]

/-- An ignored special file makes a walk fail that succeeds without it. -/
theorem ignored_special_refused : Tree (beside none) ∧ Tree (beside (some .special)) ∧
    IgnoreRules.ignored [[112]] [112] = true ∧ (Manifest.empty : Manifest ℕ).entries.keys = [] ∧
    (beside (some .special)).names [] = .ok [.name [97], .name [112]] ∧ (beside none).names [] = .ok [.name [97]] ∧
    (∀ r, r ≠ [112] → (beside (some .special)).lookup r = (beside none).lookup r) ∧
    (∃ found, (walk .layer [[112]] Manifest.empty).alone (beside none) = (.ok [found], beside none)) ∧
    (walk .layer [[112]] Manifest.empty).alone (beside (some .special)) =
      (.error (.unsupported [112]), beside (some .special)) := by
  refine ⟨beside_none, beside_special, rfl, rfl, rfl, rfl, fun r hr => ?_, ⟨_, rfl⟩, rfl⟩
  simp only [beside, if_neg hr]

end Surroundings

end Javelin
