import Javelin.StatCache

/-! # The stat cache changes no scan

Files change between the steps of scans, and scans run beside each other (`Directory.Run`).  Every change
leaves a change time that is not older than the margin (`Change`).

A saved claim is trusted if its fingerprint is older than the margin before the scan that made it began.  Such
a fingerprint rules out every change since then, so the claim holds of that file (`Holds`) and goes on to
hold (`Holds.later`).  Hence `Reachable.scan_sight`: whatever happened, a scan with the cache that was
saved sees what a scan with no cache sees. -/

namespace Javelin

open KeyedList

namespace Surroundings

variable {Id : Type} (host : Surroundings Id)

/-! ### Changes -/

/-- The directory changes; the clock does not go back. -/
structure Change (v v' : Volume Id) : Prop where
  clock : v.clock ≤ v'.clock
  cache : v'.cache = v.cache ∨ v'.cache = none
  paths : ∀ path, (v'.lookup path = v.lookup path ∧ v'.changed path = v.changed path) ∨
    (v.changed path < v'.changed path ∧ ∀ file, v'.lookup path = .ok (.file file) →
      v'.clock - RACY_MARGIN_NS < file.stat.ctime ∧ file.stat.ctime ≤ v'.clock)

/-- What any number of changes leads to. -/
structure Later (v v' : Volume Id) : Prop where
  clock : v.clock ≤ v'.clock
  paths : ∀ path, (v'.lookup path = v.lookup path ∧ v'.changed path = v.changed path) ∨
    (v.changed path < v'.changed path ∧ ∀ file, v'.lookup path = .ok (.file file) →
      v.clock - RACY_MARGIN_NS < file.stat.ctime)

theorem Later.refl (v : Volume Id) : Later v v := ⟨le_refl _, fun _ => .inl ⟨rfl, rfl⟩⟩

theorem Later.trans {u v w : Volume Id} (h : Later u v) (h' : Later v w) : Later u w := by
  have hclock := h.clock
  refine ⟨le_trans hclock h'.clock, fun path => ?_⟩
  cases h.paths path with
  | inl hsame =>
      cases h'.paths path with
      | inl hsame' => exact .inl ⟨hsame'.1.trans hsame.1, hsame'.2.trans hsame.2⟩
      | inr hnew =>
          refine .inr ⟨by have := hnew.1; omega, fun file hfile => ?_⟩
          have := hnew.2 file hfile
          omega
  | inr hnew =>
      refine .inr ?_
      cases h'.paths path with
      | inl hsame' =>
          rw [hsame'.1, hsame'.2]
          exact hnew
      | inr hnew' =>
          refine ⟨by have := hnew.1; have := hnew'.1; omega, fun file hfile => ?_⟩
          have := hnew'.2 file hfile
          omega

theorem Change.later {v v' : Volume Id} (h : Change v v') : Later v v' := by
  refine ⟨h.clock, fun path => (h.paths path).imp_right (fun hnew => ⟨hnew.1, fun file hfile => ?_⟩)⟩
  have hclock := h.clock
  have := (hnew.2 file hfile).1
  omega

theorem Later.changed_le {v v' : Volume Id} (h : Later v v') (path : Str) : v.changed path ≤ v'.changed path := by
  cases h.paths path with
  | inl hsame => exact hsame.2.ge
  | inr hnew => exact hnew.1.le

theorem Later.lookup_eq {v v' : Volume Id} (h : Later v v') {path : Str}
    (hchanged : v'.changed path = v.changed path) :
    v'.lookup path = v.lookup path := by
  cases h.paths path with
  | inl hsame => exact hsame.1
  | inr hnew => exact absurd hnew.1 (by omega)

/-- An old fingerprint rules out every change since. -/
theorem Later.unchanged {v v' : Volume Id} (h : Later v v') {path : Str} {file : File}
    (hfile : v'.lookup path = .ok (.file file)) (hold : file.stat.ctime < v.clock - RACY_MARGIN_NS) :
    v'.changed path = v.changed path := by
  cases h.paths path with
  | inl hsame => exact hsame.2
  | inr hnew =>
      have := hnew.2 file hfile
      omega

/-! ### Claims -/

/-- What reading a file gives at rest. -/
def bytesOf (file : File) : Except IoError Str :=
  if file.symlink then file.content
  else match file.closed with
    | some e => .error e
    | none => file.content

/-- The entry of a file that can be read and stored. -/
def reading (file : File) : Option (FileEntry Id) :=
  match bytesOf file with
  | .error _ => none
  | .ok bytes =>
      match host.store bytes with
      | .ok content => some (entryOf file.stat file.symlink content)
      | .error _ => none

/-- A trusted claim is old, and right about the file with its fingerprint. -/
def Holds (v : Volume Id) (path : Str) (cached : Cached Id) : Prop :=
  cached.trusted = true → cached.stat.ctime < v.clock - RACY_MARGIN_NS ∧
    ∀ file, v.lookup path = .ok (.file file) → file.stat = cached.stat → host.reading file = some cached.entry

def Claims (v : Volume Id) (entries : CacheEntries Id) : Prop :=
  ∀ path cached, entries.get? path = some cached → host.Holds v path cached

variable {host}

theorem Holds.later {v v' : Volume Id} {path : Str} {cached : Cached Id} (h : host.Holds v path cached)
    (hl : Later v v') : host.Holds v' path cached := by
  intro ht
  obtain ⟨hold, hright⟩ := h ht
  have hclock := hl.clock
  refine ⟨by omega, fun file hfile hstat => ?_⟩
  have hsame := hl.unchanged hfile (by rw [hstat]; exact hold)
  rw [hl.lookup_eq hsame] at hfile
  exact hright file hfile hstat

theorem Claims.later {v v' : Volume Id} {entries : CacheEntries Id} (h : host.Claims v entries) (hl : Later v v') :
    host.Claims v' entries :=
  fun path cached hget => (h path cached hget).later hl

theorem claims_empty (v : Volume Id) : host.Claims v .empty := by
  intro path cached hget
  rw [SortedMap.get?_empty] at hget
  cases hget

theorem Claims.erase {v : Volume Id} {entries : CacheEntries Id} (h : host.Claims v entries) (path : Str) :
    host.Claims v (entries.erase path) := by
  intro path' cached hget
  rw [SortedMap.get?_erase] at hget
  split at hget
  · cases hget
  · exact h path' cached hget

theorem Claims.insert {v : Volume Id} {entries : CacheEntries Id} (h : host.Claims v entries) {path : Str}
    {cached : Cached Id} (hc : host.Holds v path cached) : host.Claims v (entries.insert path cached) := by
  intro path' cached' hget
  rw [SortedMap.get?_insert] at hget
  split at hget
  · rename_i he
    rw [← he, ← Option.some.inj hget]
    exact hc
  · exact h path' cached' hget

theorem Claims.load {v : Volume Id} (h : ∀ entries, v.cache = some entries → host.Claims v entries) :
    host.Claims v (Surroundings.load v).entries := by
  unfold Surroundings.load
  split
  · rename_i entries hcache
    exact h entries hcache
  · exact claims_empty v

theorem Claims.reused {v : Volume Id} {old : CacheEntries Id} (h : host.Claims v old) {found : Found}
    {cached : Cached Id} (hr : Surroundings.reused old found = some cached) :
    cached.trusted = true ∧ cached.stat = found.stat ∧ host.Holds v found.relative cached := by
  unfold Surroundings.reused at hr
  rw [Option.filter_eq_some_iff] at hr
  obtain ⟨hget, hc⟩ := hr
  simp only [Bool.and_eq_true, beq_iff_eq] at hc
  exact ⟨hc.1, hc.2, h _ _ hget⟩

/-! ### Stable reads -/

section stable

variable {inv : Volume Id → Prop} {rely guar : Volume Id → Volume Id → Prop}

/-- The environment and the steps of scans go on in time. -/
structure Mild (rely guar : Volume Id → Volume Id → Prop) : Prop where
  refl : ∀ v, guar v v
  rely : ∀ {v v'}, rely v v' → Later v v'
  guar : ∀ {v v'}, guar v v' → Later v v'

/-- What was read is the content at `w`, if the entry has not changed since. -/
def ReadAt (w : Volume Id) (path : Str) (v : Volume Id) (symlink : Bool) (bytes : Str) : Prop :=
  v.changed path = w.changed path → ∃ file, w.lookup path = .ok (.file file) ∧ file.symlink = symlink ∧
    bytesOf file = .ok bytes

theorem keeps_readLink {w v : Volume Id} {path : Str} (hm : Mild rely guar)
    (hl : Later w v) :
    (readLink path).Keeps inv rely guar (fun _ _ => True) (fun v result => Later w v ∧
      ∀ bytes, result = .ok bytes → ReadAt w path v true bytes) v := by
  refine Process.keeps_read hm.refl (fun v' _ hr _ => ⟨hl.trans (hm.rely hr), fun bytes hread hchanged => ?_⟩)
  obtain ⟨place, hlook, hread⟩ := except_bind_eq_ok.mp hread
  rw [(hl.trans (hm.rely hr)).lookup_eq hchanged] at hlook
  cases place with
  | directory => cases hread
  | special => cases hread
  | file file =>
      dsimp only at hread
      split at hread
      · rename_i hlink
        refine ⟨file, hlook, hlink, ?_⟩
        unfold bytesOf
        rw [if_pos hlink]
        exact hread
      · cases hread

theorem keeps_openFile {w v : Volume Id} {path : Str} (hm : Mild rely guar)
    (hl : Later w v) :
    (openFile path).Keeps inv rely guar (fun _ _ => True) (fun v result => Later w v ∧
      ∀ opened, result = .ok (some opened) → opened.seen = v.changed path ∧
        v.lookup path = .ok (.file opened.file) ∧ opened.file.symlink = false ∧ opened.file.closed = none) v := by
  refine Process.keeps_read hm.refl (fun v' _ hr _ => ⟨hl.trans (hm.rely hr), fun opened hopen => ?_⟩)
  obtain ⟨place, hlook, hopen⟩ := except_bind_eq_ok.mp hopen
  cases place with
  | directory => cases hopen
  | special => cases hopen
  | file file =>
      dsimp only at hopen
      cases hlink : file.symlink with
      | true =>
          rw [hlink] at hopen
          cases hopen
      | false =>
          rw [hlink] at hopen
          cases hclosed : file.closed with
          | some e =>
              rw [hclosed] at hopen
              cases hopen
          | none =>
              rw [hclosed] at hopen
              cases hopen
              exact ⟨rfl, hlook, hlink, hclosed⟩

theorem keeps_readOpened {w u v : Volume Id} {path : Str} {opened : Opened} (hm : Mild rely guar)
    (hu : Later w u) (hl : Later u v)
    (hopened : opened.seen = u.changed path ∧ u.lookup path = .ok (.file opened.file) ∧
      opened.file.symlink = false ∧ opened.file.closed = none) :
    (host.readOpened path opened).Keeps inv rely guar (fun _ _ => True) (fun v result => Later w v ∧
      ∀ bytes, result = .ok bytes → ReadAt w path v false bytes) v := by
  obtain ⟨hseen, hlook, hlink, hclosed⟩ := hopened
  refine Process.keeps_read hm.refl (fun v' _ hr _ => ?_)
  have hl' := hl.trans (hm.rely hr)
  refine ⟨hu.trans hl', fun bytes hread hchanged => ⟨opened.file, ?_, hlink, ?_⟩⟩
  · -- Between the two states of an unchanged entry it has not changed either.
    have h₁ := hu.changed_le path
    have h₂ := hl'.changed_le path
    rw [← hu.lookup_eq (by omega)]
    exact hlook
  · have h₁ := hu.changed_le path
    have h₂ := hl'.changed_le path
    rw [if_pos (by omega)] at hread
    unfold bytesOf
    rw [if_neg (by rw [hlink]; exact Bool.false_ne_true), hclosed]
    exact hread

theorem keeps_readEntry {w v : Volume Id} {path : Str} {before : Stat} (hm : Mild rely guar) (hl : Later w v) :
    (host.readEntry path before).Keeps inv rely guar (fun _ _ => True) (fun v result => Later w v ∧
      ∀ symlink bytes, result = .ok (some (symlink, bytes)) → ReadAt w path v symlink bytes) v := by
  refine Process.keeps_bind (Process.keeps_read hm.refl (fun v₁ _ hr _ => ?_))
  have hl := hl.trans (hm.rely hr)
  split
  · rename_i link _
    cases link with
    | true =>
        refine Process.keeps_bind ((keeps_readLink hm hl).imp (fun v₂ result hpost => ?_))
        cases result with
        | error e => exact ⟨hpost.1, fun _ _ h => by cases h⟩
        | ok bytes =>
            refine ⟨hpost.1, fun symlink bytes' h => ?_⟩
            cases h
            exact hpost.2 bytes rfl
    | false =>
        refine Process.keeps_bind ((keeps_openFile hm hl).imp (fun v₂ result hpost => ?_))
        cases result with
        | error e => exact ⟨hpost.1, fun _ _ h => by cases h⟩
        | ok opened =>
            cases opened with
            | none => exact ⟨hpost.1, fun _ _ h => by cases h⟩
            | some opened =>
                dsimp only
                split
                · refine Process.keeps_bind ((keeps_readOpened hm hpost.1 (Later.refl v₂)
                    (hpost.2 opened rfl)).imp (fun v₃ result hread => ?_))
                  cases result with
                  | error e => exact ⟨hread.1, fun _ _ h => by cases h⟩
                  | ok bytes =>
                      refine ⟨hread.1, fun symlink bytes' h => ?_⟩
                      cases h
                      exact hread.2 bytes rfl
                · exact ⟨hpost.1, fun _ _ h => by cases h⟩
  · exact ⟨hl, fun _ _ h => by cases h⟩

theorem keeps_lstat {w v : Volume Id} {path : Str} (hm : Mild rely guar)
    (hl : Later w v) :
    (lstat path).Keeps inv rely guar (fun _ _ => True) (fun v result => Later w v ∧
      ∀ stat, result = .ok (some stat) → ∃ file, v.lookup path = .ok (.file file) ∧ file.stat = stat) v := by
  refine Process.keeps_read hm.refl (fun v' _ hr _ => ⟨hl.trans (hm.rely hr), fun stat hstat => ?_⟩)
  obtain ⟨place, hlook, hstat⟩ := except_bind_eq_ok.mp hstat
  cases place with
  | directory => cases hstat
  | special => cases hstat
  | file file =>
      cases hstat
      exact ⟨file, hlook, rfl⟩

/-- A stable read with an old fingerprint read the file that is there. -/
theorem keeps_attempt {w v : Volume Id} {path : Str} (hm : Mild rely guar) (hl : Later w v) :
    (host.attempt path).Keeps inv rely guar (fun _ _ => True) (fun v result => Later w v ∧
      ∀ stat symlink bytes, result = .ok (some (stat, symlink, bytes)) →
        stat.ctime < w.clock - RACY_MARGIN_NS → ∃ file, v.lookup path = .ok (.file file) ∧
          file.stat = stat ∧ file.symlink = symlink ∧ bytesOf file = .ok bytes) v := by
  refine Process.keeps_bind ((keeps_lstat hm hl).imp (fun v₁ result hlook => ?_))
  have hl := hlook.1
  cases result with
  | error e => exact ⟨hl, fun _ _ _ h => by cases h⟩
  | ok before =>
      cases before with
      | none => exact ⟨hl, fun _ _ _ h => by cases h⟩
      | some before =>
          refine Process.keeps_bind ((keeps_readEntry hm hl).imp (fun v₂ result hread => ?_))
          cases result with
          | error e => exact ⟨hread.1, fun _ _ _ h => by cases h⟩
          | ok content =>
              cases content with
              | none => exact ⟨hread.1, fun _ _ _ h => by cases h⟩
              | some content =>
                  refine Process.keeps_bind (Process.keeps_caught
                    ((keeps_lstat hm (Later.refl v₂)).imp (fun v₃ result hafter => ?_)))
                  have hl₂ := hafter.1
                  have hl₃ := hread.1.trans hl₂
                  cases result with
                  | error e => exact ⟨hl₃, fun _ _ _ h => by cases h⟩
                  | ok after =>
                      refine ⟨hl₃, fun stat symlink bytes h hold => ?_⟩
                      split at h
                      · rename_i he
                        cases h
                        obtain ⟨file, hfile, hstat⟩ := hafter.2 before (by rw [he])
                        have hsame := hl₃.unchanged hfile (by rw [hstat]; exact hold)
                        have h₁ := hread.1.changed_le path
                        have h₂ := hl₂.changed_le path
                        obtain ⟨read, hw, hlink, hbytes⟩ := hread.2 _ _ rfl (by omega)
                        rw [← hl₃.lookup_eq hsame, hfile] at hw
                        cases hw
                        exact ⟨file, hfile, hstat, hlink, hbytes⟩
                      · cases h

/-- So does the entry that comes from it. -/
theorem keeps_readStable {w : Volume Id} {path : Str} {attempts : ℕ} (hm : Mild rely guar)
    {v : Volume Id} (hl : Later w v) :
    (host.readStable path attempts).Keeps inv rely guar (fun _ _ => True) (fun v result => Later w v ∧
      ∀ stat entry, result = .ok (.stable stat entry) → stat.ctime < w.clock - RACY_MARGIN_NS →
        ∃ file, v.lookup path = .ok (.file file) ∧ file.stat = stat ∧ host.reading file = some entry) v := by
  induction attempts generalizing v with
  | zero => exact ⟨hl, fun _ _ h => by cases h⟩
  | succ attempts ih =>
      refine Process.keeps_bind (Process.keeps_caught ((keeps_attempt hm hl).imp (fun v₁ result hpost => ?_)))
      obtain ⟨hl₁, hread⟩ := hpost
      cases result with
      | error e =>
          cases e with
          | notFound => exact ⟨hl₁, fun _ _ h => by cases h⟩
          | symlinkLoop => exact ih hl₁
          | other text => exact ⟨hl₁, fun _ _ h => by cases h⟩
      | ok content =>
          cases content with
          | none => exact ih hl₁
          | some content =>
              obtain ⟨after, symlink, bytes⟩ := content
              dsimp only
              cases hstore : host.store bytes with
              | error e => exact ⟨hl₁, fun _ _ h => by cases h⟩
              | ok id =>
                  refine ⟨hl₁, fun stat entry h hold => ?_⟩
                  cases h
                  obtain ⟨file, hfile, hstat, hlink, hbytes⟩ := hread _ _ _ rfl hold
                  refine ⟨file, hfile, hstat, ?_⟩
                  unfold reading
                  rw [hbytes]
                  dsimp only
                  rw [hstore, hstat, hlink]

end stable

/-! ### Scans -/

section scans

variable {inv : Volume Id → Prop} {rely guar : Volume Id → Volume Id → Prop}

/-- What a scan under way holds. -/
structure Honest (host : Surroundings Id) (v : Volume Id) (progress : Progress Id) : Prop where
  old : host.Claims v progress.old
  fresh : host.Claims v progress.fresh

theorem Honest.later {v v' : Volume Id} {progress : Progress Id} (h : Honest host v progress) (hl : Later v v') :
    Honest host v' progress :=
  ⟨h.old.later hl, h.fresh.later hl⟩

theorem Honest.take {v : Volume Id} {progress : Progress Id} {found : Found} {cached : Cached Id}
    (h : Honest host v progress) (hc : host.Holds v found.relative cached) :
    Honest host v (progress.take found cached) :=
  ⟨h.old.erase _, h.fresh.insert hc⟩

/-- A trusted claim rests on a stable read with an old fingerprint. -/
theorem holds_claim {w v : Volume Id} {found : Found} {read : Stat} {entry : FileEntry Id} (hl : Later w v)
    (hread : read.ctime < w.clock - RACY_MARGIN_NS → ∃ file, v.lookup found.relative = .ok (.file file) ∧
      file.stat = read ∧ host.reading file = some entry) :
    host.Holds v found.relative (Progress.claim (w.clock - RACY_MARGIN_NS) found read entry) := by
  intro ht
  simp only [Progress.claim, Bool.and_eq_true, decide_eq_true_eq, beq_iff_eq] at ht
  obtain ⟨⟨_, _, hold⟩, hstat⟩ := ht
  obtain ⟨file, hfile, hfstat, hreading⟩ := hread hold
  have hclock := hl.clock
  refine ⟨?_, fun file' hfile' _ => ?_⟩
  · show found.stat.ctime < _
    rw [hstat]
    omega
  · rw [hfile] at hfile'
    cases hfile'
    exact hreading

theorem keeps_captureFound {w v : Volume Id} {prior : Manifest Id} {progress : Progress Id} {found : Found}
    (hm : Mild rely guar) (hl : Later w v)
    (hh : Honest host v progress) :
    (host.captureFound prior (w.clock - RACY_MARGIN_NS) progress found).Keeps inv rely guar (fun _ _ => True)
      (fun v result => Later w v ∧ ∀ progress', result = .ok progress' → Honest host v progress') v := by
  unfold captureFound
  split
  · rename_i cached hreused
    refine ⟨hl, fun progress' h => ?_⟩
    cases h
    exact hh.take (hh.old.reused hreused).2.2
  · refine Process.keeps_bind (((keeps_readStable hm hl).since Later.refl
      (fun _ _ _ h h' => h.trans h') (fun _ _ h => hm.rely h) (fun _ _ h => hm.guar h)).imp (fun v₁ result hpost => ?_))
    obtain ⟨hl₁, hlater, hread⟩ := hpost
    have hh := hh.later hl₁
    cases result with
    | error e => exact ⟨hlater, fun _ h => by cases h⟩
    | ok hashed =>
        cases hashed with
        | stable read entry =>
            refine ⟨hlater, fun progress' h => ?_⟩
            cases h
            exact Honest.take ⟨hh.old, hh.fresh⟩ (holds_claim hlater (hread read entry rfl))
        | gone =>
            refine ⟨hlater, fun progress' h => ?_⟩
            cases h
            exact ⟨hh.old.erase _, hh.fresh⟩
        | unstable =>
            refine ⟨hlater, fun progress' h => ?_⟩
            cases h
            exact ⟨hh.old.erase _, hh.fresh⟩

theorem keeps_captureAll {w v : Volume Id} {prior : Manifest Id} {progress : Progress Id} {founds : List Found}
    (hm : Mild rely guar) (hl : Later w v) (hh : Honest host v progress) :
    (host.captureAll prior (w.clock - RACY_MARGIN_NS) progress founds).Keeps inv rely guar (fun _ _ => True)
      (fun v result => ∀ progress', result = .ok progress' → Honest host v progress') v := by
  induction founds generalizing v progress with
  | nil =>
      intro progress' h
      cases h
      exact hh
  | cons found founds ih =>
      refine Process.keeps_bind ((keeps_captureFound hm hl hh).imp (fun v₁ result hpost => ?_))
      cases result with
      | error e => exact fun _ h => by cases h
      | ok progress => exact ih hpost.1 (hpost.2 progress rfl)

end scans

/-! ### Walks -/

section walks

variable {inv : Volume Id → Prop} {rely guar : Volume Id → Volume Id → Prop} {Seen : Volume Id → Listed → Prop}
  {source : Source} {rules : IgnoreRules} {prior : Manifest Id}

/-- What is said of an item when the walk lists it goes on to hold. -/
structure Lasting (rely guar : Volume Id → Volume Id → Prop) (Seen : Volume Id → Listed → Prop) : Prop where
  refl : ∀ v, guar v v
  rely : ∀ {v v'}, rely v v' → ∀ listed, Seen v listed → Seen v' listed
  guar : ∀ {v v'}, guar v v' → ∀ listed, Seen v listed → Seen v' listed
  nothing : ∀ v, Seen v .nothing
  found : ∀ {v relative path file}, v.lookup relative = .ok (.file file) →
    Seen v (.found ⟨relative, path, file.stat⟩)

/-- It holds of every subdirectory of a directory. -/
def Below (Seen : Volume Id → Listed → Prop) (directory : Str) : Prop :=
  ∀ v name path, RepoPath.parse (join directory name) = some path → Seen v (.subdirectory (join directory name))

/-- It holds of all that a part of the walk lists. -/
def Sees (Seen : Volume Id → Listed → Prop) (v : Volume Id) (result : Except (ScanError Id) (List Listed)) : Prop :=
  ∀ listed, result = .ok listed → ∀ item ∈ listed, Seen v item

theorem keeps_listItem {v : Volume Id} {directory : Str} {item : DirItem} (hs : Lasting rely guar Seen)
    (hb : Below Seen directory) :
    (listItem source rules prior directory item).Keeps inv rely guar (fun _ _ => True)
      (fun v result => ∀ listed, result = .ok listed → Seen v listed) v := by
  cases item with
  | failed e => exact fun _ h => by cases h
  | nonUtf8 => exact fun _ h => by cases h
  | name name =>
      rw [listItem]
      split
      · intro listed h
        cases h
        exact hs.nothing _
      · split
        · exact fun _ h => by cases h
        · rename_i path hparse
          refine Process.keeps_read hs.refl (fun v' _ _ _ listed h => ?_)
          cases hlook : v'.lookup (join directory name) with
          | error e =>
              rw [hlook] at h
              cases e with
              | notFound =>
                  cases h
                  exact hs.nothing _
              | symlinkLoop => cases h
              | other text => cases h
          | ok place =>
              rw [hlook] at h
              cases place with
              | directory =>
                  dsimp only at h
                  split at h
                  · cases h
                    exact hs.nothing _
                  · cases h
                    exact hb v' name path hparse
              | special => cases h
              | file file =>
                  dsimp only at h
                  split at h
                  · cases h
                    exact hs.nothing _
                  · cases h
                    exact hs.found hlook

theorem keeps_listItems {v : Volume Id} {directory : Str} {items : List DirItem} (hs : Lasting rely guar Seen)
    (hb : Below Seen directory) :
    (listItems source rules prior directory items).Keeps inv rely guar (fun _ _ => True) (Sees Seen) v := by
  induction items generalizing v with
  | nil =>
      intro listed h item hm
      cases h
      cases hm
  | cons item items ih =>
      refine Process.keeps_bind ((keeps_listItem hs hb).imp (fun v₁ result hfirst => ?_))
      cases result with
      | error e => exact fun _ h => by cases h
      | ok first =>
          refine Process.keeps_bind ((ih.since (fun _ _ => id) (fun _ _ _ h h' item hi => h' item (h item hi))
            (fun _ _ => hs.rely) (fun _ _ => hs.guar)).imp (fun v₂ result hrest => ?_))
          cases result with
          | error e => exact fun _ h => by cases h
          | ok rest =>
              intro listed h item hmem
              cases h
              cases List.mem_cons.mp hmem with
              | inl he =>
                  rw [he]
                  exact hrest.1 first (hfirst first rfl)
              | inr hmem => exact hrest.2 rest rfl item hmem

theorem keeps_list {v : Volume Id} {directory : Str} (hs : Lasting rely guar Seen) (hb : Below Seen directory) :
    (list source rules prior directory).Keeps inv rely guar (fun _ _ => True) (Sees Seen) v := by
  refine Process.keeps_bind (Process.keeps_read hs.refl (fun v₁ _ _ _ => ?_))
  split
  · exact keeps_listItems hs hb
  · exact fun _ h => by cases h

theorem keeps_listAll {v : Volume Id} {directories : List Str} (hs : Lasting rely guar Seen)
    (hb : ∀ directory ∈ directories, Below Seen directory) :
    (listAll source rules prior directories).Keeps inv rely guar (fun _ _ => True) (Sees Seen) v := by
  induction directories generalizing v with
  | nil =>
      intro listed h item hm
      cases h
      cases hm
  | cons directory directories ih =>
      rw [List.forall_mem_cons] at hb
      refine Process.keeps_bind ((keeps_list hs hb.1).imp (fun v₁ result hfirst => ?_))
      cases result with
      | error e => exact fun _ h => by cases h
      | ok first =>
          refine Process.keeps_bind (((ih hb.2).since (fun _ _ => id)
            (fun _ _ _ h h' item hi => h' item (h item hi)) (fun _ _ => hs.rely) (fun _ _ => hs.guar)).imp
            (fun v₂ result hrest => ?_))
          cases result with
          | error e => exact fun _ h => by cases h
          | ok rest =>
              intro listed h item hmem
              cases h
              cases List.mem_append.mp hmem with
              | inl hmem => exact hrest.1 item (hfirst first rfl item hmem)
              | inr hmem => exact hrest.2 rest rfl item hmem

theorem mem_files {listed : List Listed} {found : Found} : found ∈ files listed ↔ .found found ∈ listed := by
  unfold files
  rw [List.mem_filterMap]
  constructor
  · intro h
    obtain ⟨item, hm, h⟩ := h
    cases item with
    | nothing => cases h
    | found f =>
        cases h
        exact hm
    | subdirectory relative => cases h
  · exact fun h => ⟨_, h, rfl⟩

theorem mem_subdirectories {listed : List Listed} {relative : Str} :
    relative ∈ subdirectories listed ↔ .subdirectory relative ∈ listed := by
  unfold subdirectories
  rw [List.mem_filterMap]
  constructor
  · intro h
    obtain ⟨item, hm, h⟩ := h
    cases item with
    | nothing => cases h
    | found f => cases h
    | subdirectory r =>
        cases h
        exact hm
  · exact fun h => ⟨_, h, rfl⟩

/-- What holds of the files that a walk lists holds of all it found. -/
theorem keeps_walkLevels {levels : ℕ} {v : Volume Id} {directories : List Str} (hs : Lasting rely guar Seen)
    (hb : ∀ directory, Below Seen directory) :
    (walkLevels source rules prior levels directories).Keeps inv rely guar (fun _ _ => True)
      (fun v result => ∀ founds, result = .ok founds → ∀ found ∈ founds, Seen v (.found found)) v := by
  induction levels generalizing v directories with
  | zero =>
      cases directories with
      | nil =>
          intro founds h found hm
          cases h
          cases hm
      | cons directory directories =>
          intro founds h found hm
          cases h
          cases hm
  | succ levels ih =>
      cases directories with
      | nil =>
          intro founds h found hm
          cases h
          cases hm
      | cons directory directories =>
          refine Process.keeps_bind ((keeps_listAll hs (fun directory _ => hb directory)).imp
            (fun v₁ result hfirst => ?_))
          cases result with
          | error e => exact fun _ h => by cases h
          | ok listed =>
              refine Process.keeps_bind ((ih.since (fun _ _ => id)
                (fun _ _ _ h h' item hi => h' item (h item hi)) (fun _ _ => hs.rely) (fun _ _ => hs.guar)).imp
                (fun v₂ result hrest => ?_))
              cases result with
              | error e => exact fun _ h => by cases h
              | ok below =>
                  intro founds h found hmem
                  cases h
                  cases List.mem_append.mp hmem with
                  | inl hmem => exact hrest.1 _ (hfirst listed rfl _ (mem_files.mp hmem))
                  | inr hmem => exact hrest.2 below rfl found hmem

theorem keeps_walk {v : Volume Id} (hs : Lasting rely guar Seen) (hb : ∀ directory, Below Seen directory) :
    (walk source rules prior).Keeps inv rely guar (fun _ _ => True)
      (fun v result => ∀ founds, result = .ok founds → ∀ found ∈ founds, Seen v (.found found)) v :=
  keeps_walkLevels hs hb

/-- A directory at least so deep. -/
def Deep (depth : ℕ) (directory : Str) : Prop :=
  depth = 0 ∨ ∃ path, RepoPath.parse directory = some path ∧ depth ≤ path.names.length

theorem Deep.below {depth : ℕ} {directory name : Str} {path : RepoPath} (h : Deep depth directory)
    (hpath : RepoPath.parse (join directory name) = some path) : depth + 1 ≤ path.names.length := by
  obtain ⟨hvalid, hstr⟩ := RepoPath.parse_eq_ok.mp hpath
  cases h with
  | inl h =>
      have := List.length_pos_iff.mpr hvalid.1
      omega
  | inr h =>
      obtain ⟨parent, hparse, hdepth⟩ := h
      obtain ⟨⟨hparent, _⟩, rfl⟩ := RepoPath.parse_eq_ok.mp hparse
      have hne : parent.asStr ≠ [] := fun he => hparent (joinNames_eq_nil he)
      unfold join at hstr
      rw [if_neg (by rw [List.isEmpty_iff]; exact hne)] at hstr
      obtain ⟨rest, hrest, hnames, _⟩ := joinNames_append_slash hparent hstr.symm
      have := List.length_pos_iff.mpr hrest
      rw [hnames, List.length_append]
      omega

/-- No directory is deeper than paths may be. -/
theorem Deep.le {depth : ℕ} {directory : Str} (h : Deep depth directory) : depth ≤ MAX_DEPTH := by
  cases h with
  | inl h => omega
  | inr h =>
      obtain ⟨path, hpath, hdepth⟩ := h
      exact le_trans hdepth (RepoPath.parse_eq_ok.mp hpath).1.2.1

theorem walkLevels_eq {levels levels' depth : ℕ} {directories : List Str}
    (hdeep : ∀ directory ∈ directories, Deep depth directory) (hl : MAX_DEPTH + 1 ≤ levels + depth)
    (hl' : MAX_DEPTH + 1 ≤ levels' + depth) :
    walkLevels source rules prior levels directories = walkLevels source rules prior levels' directories := by
  induction levels generalizing levels' depth directories with
  | zero =>
      cases directories with
      | nil => cases levels' <;> rfl
      | cons directory directories =>
          have := (hdeep directory List.mem_cons_self).le
          omega
  | succ levels ih =>
      cases directories with
      | nil => cases levels' <;> rfl
      | cons directory directories =>
          cases levels' with
          | zero =>
              have := (hdeep directory List.mem_cons_self).le
              omega
          | succ levels' =>
              have hs : Lasting (fun _ _ => True) (fun _ _ => True) (fun (_ : Volume Id) listed =>
                  ∀ relative, listed = .subdirectory relative → Deep (depth + 1) relative) :=
                ⟨fun _ => trivial, fun _ _ => id, fun _ _ => id, fun _ _ h => (by cases h),
                  fun _ _ h => (by cases h)⟩
              have hb : ∀ d ∈ directory :: directories, Below (fun (_ : Volume Id) listed =>
                  ∀ relative, listed = .subdirectory relative → Deep (depth + 1) relative) d := by
                intro d hm v name path hpath relative h
                cases h
                exact .inr ⟨path, hpath, (hdeep d hm).below hpath⟩
              let v : Volume Id := ⟨0, fun _ => .error .notFound, fun _ => .error .notFound, fun _ => 0, none⟩
              refine Process.bind_congr v ((keeps_listAll hs hb).imp (fun v result hsees listed h => ?_))
              have hsame := @ih levels' (depth + 1) (subdirectories listed)
                (fun d hd => hsees listed h _ (mem_subdirectories.mp hd) d rfl) (by omega) (by omega)
              rw [hsame]

/-- The limit on the depth of paths ends a walk: further levels find nothing. -/
theorem walk_levels (levels : ℕ) :
    walkLevels source rules prior (MAX_DEPTH + 1 + levels) [[]] = walk source rules prior :=
  walkLevels_eq (fun _ _ => .inl rfl) (by omega) (by omega)

end walks

/-! ### What a scan keeps -/

section keeping

variable {inv : Volume Id → Prop} {rely guar : Volume Id → Volume Id → Prop}

theorem keeps_ignoreRules {v : Volume Id} (hrefl : ∀ v, guar v v) :
    host.ignoreRules.Keeps inv rely guar (fun _ _ => True) (fun _ _ => True) v := by
  refine Process.keeps_bind (Process.keeps_read hrefl (fun v₁ _ _ _ => ?_))
  split
  · split
    · refine Process.keeps_bind (Process.keeps_caught (Process.keeps_read hrefl (fun v₂ _ _ _ => ?_)))
      dsimp only
      split
      · refine Process.keeps_bind (Process.keeps_caught (Process.keeps_read hrefl (fun v₃ _ _ _ => ?_)))
        dsimp only
        split
        · split
          · trivial
          · split <;> trivial
        · trivial
      · trivial
    · trivial
  · trivial

/-- The claims a scan leaves hold if those it took over do. -/
theorem keeps_scanSource {v : Volume Id} {source : Source} {prior : Manifest Id} {cache : StatCache Id}
    (hm : Mild rely guar) (hc : host.Claims v cache.entries) :
    (host.scanSource source prior cache).Keeps inv rely guar (fun _ _ => True)
      (fun v result => ∀ answer, result = .ok answer → host.Claims v answer.2.entries) v := by
  have htrans : ∀ u v w : Volume Id, Later u v → Later v w → Later u w := fun _ _ _ h h' => h.trans h'
  have hrely : ∀ v v' : Volume Id, rely v v' → Later v v' := fun _ _ => hm.rely
  have hguar : ∀ v v' : Volume Id, guar v v' → Later v v' := fun _ _ => hm.guar
  refine Process.keeps_bind (Process.keeps_read hm.refl (fun v₁ _ hr _ => ?_))
  have hc := hc.later (hm.rely hr)
  split
  · refine Process.keeps_bind (((keeps_ignoreRules hm.refl).since Later.refl htrans hrely hguar).imp
      (fun v₂ result hl => ?_))
    have hc := hc.later hl.1
    cases result with
    | error e => exact fun _ h => by cases h
    | ok rules =>
        -- `w` is the state whose clock the scan takes for its reference.
        refine Process.keeps_bind (Process.keeps_read hm.refl (fun w _ hr _ => ?_))
        have hc := hc.later (hm.rely hr)
        have hs : Lasting rely guar (fun (_ : Volume Id) _ => True) :=
          ⟨hm.refl, fun _ _ => id, fun _ _ => id, fun _ => trivial, fun _ => trivial⟩
        refine Process.keeps_bind (((keeps_walk hs (fun _ _ _ _ _ => trivial)).since Later.refl htrans
          hrely hguar).imp (fun v₃ result hl => ?_))
        cases result with
        | error e => exact fun _ h => by cases h
        | ok founds =>
            refine Process.keeps_bind ((keeps_captureAll hm hl.1 ⟨hc.later hl.1, claims_empty v₃⟩).imp
              (fun v₄ result hprogress => ?_))
            cases result with
            | error e => exact fun _ h => by cases h
            | ok progress =>
                intro answer h
                cases h
                exact (hprogress progress rfl).fresh
  · exact fun _ h => by cases h

/-- The claims that were saved hold. -/
def CacheHolds (host : Surroundings Id) (v : Volume Id) : Prop :=
  ∀ entries, v.cache = some entries → host.Claims v entries

/-- What a step of a scan leads to. -/
def Scanned (host : Surroundings Id) (v v' : Volume Id) : Prop :=
  Later v v' ∧ (host.CacheHolds v → host.CacheHolds v')

theorem mild_scanned : Mild Later host.Scanned :=
  ⟨fun v => ⟨Later.refl v, id⟩, id, And.left⟩

theorem scanned_save {v : Volume Id} {cache : StatCache Id} (hc : host.Claims v cache.entries) :
    host.Scanned v (host.save cache v) := by
  unfold save
  split
  · refine ⟨⟨le_refl _, fun _ => .inl ⟨rfl, rfl⟩⟩, fun _ entries he => ?_⟩
    cases he
    exact hc.later ⟨le_refl _, fun _ => .inl ⟨rfl, rfl⟩⟩
  · exact mild_scanned.refl v

theorem keeps_layerScan {v : Volume Id} {source : Source} {prior : Manifest Id} :
    (host.layerScan source prior).Keeps host.CacheHolds Later host.Scanned (fun _ _ => True)
      (fun _ _ => True) v := by
  refine Process.keeps_bind (Process.keeps_read mild_scanned.refl (fun v₁ hinv _ _ => ?_))
  refine Process.keeps_bind ((keeps_scanSource mild_scanned (Claims.load hinv)).imp (fun v₂ result hpost => ?_))
  cases result with
  | error e => trivial
  | ok answer =>
      -- The file changes may go on before the cache is saved.
      exact fun v₃ _ hr _ => ⟨scanned_save ((hpost answer rfl).later hr), trivial⟩

end keeping

/-! ### Runs -/

/-- Changes, and scans that run beside each other and may stop anywhere. -/
abbrev Run (host : Surroundings Id) :
    Pool Unit (Volume Id) (ScanError Id) (Scan Id) → Pool Unit (Volume Id) (ScanError Id) (Scan Id) → Prop :=
  Pool.Run Change (fun p => ∃ source prior, p = host.layerScan source prior) (fun _ _ => True)

theorem stable_scans : Pool.Stable host.CacheHolds Later host.Scanned Change
    (fun _ (_ : Except (ScanError Id) (Scan Id)) => True) where
  refl := Later.refl
  trans := fun _ _ _ h h' => h.trans h'
  post := fun _ _ _ _ _ => trivial
  env := by
    intro v v' hinv hc
    refine ⟨fun entries he => ?_, hc.later⟩
    cases hc.cache with
    | inl hsame => exact (hinv entries (by rw [← hsame, he])).later hc.later
    | inr hlost =>
        rw [hlost] at he
        cases he
  guar := fun v v' hinv hg => ⟨hg.2 hinv, hg.1⟩

/-- Whatever happens, the claims that are saved hold. -/
theorem Run.cacheHolds {v : Volume Id} {pool : Pool Unit (Volume Id) (ScanError Id) (Scan Id)}
    (h : host.Run ⟨v, []⟩ pool) (hv : v.cache = none) : host.CacheHolds pool.state := by
  have hstart : Pool.Kept host.CacheHolds Later host.Scanned (fun _ _ => True) (fun _ _ => True)
      (⟨v, []⟩ : Pool Unit (Volume Id) (ScanError Id) (Scan Id)) := by
    refine ⟨fun entries he => ?_, fun p hp => by cases hp⟩
    rw [hv] at he
    cases he
  refine (Pool.Run.kept h stable_scans (fun p s hp _ => ?_) hstart).state
  obtain ⟨source, prior, rfl⟩ := hp
  exact keeps_layerScan

/-! ### With and without the cache -/

theorem mild_rest : Mild (@Eq (Volume Id)) Eq :=
  ⟨fun _ => rfl, fun h => h ▸ Later.refl _, fun h => h ▸ Later.refl _⟩

/-- What a scan takes from the cache is what reading the file gives that the walk saw. -/
theorem Claims.reading_of_reused {v : Volume Id} {old : CacheEntries Id} (h : host.Claims v old) {found : Found}
    {cached : Cached Id} (hr : Surroundings.reused old found = some cached) {file : File}
    (hfile : v.lookup found.relative = .ok (.file file)) (hstat : file.stat = found.stat) :
    host.reading file = some cached.entry := by
  obtain ⟨ht, hcached, hholds⟩ := h.reused hr
  exact (hholds ht).2 file hfile (by rw [hstat, hcached])

theorem readEntry_alone {v : Volume Id} {path : Str} {file : File} {bytes : Str}
    (hfile : v.lookup path = .ok (.file file)) (hread : bytesOf file = .ok bytes) :
    (host.readEntry path file.stat).alone v = (.ok (some (file.symlink, bytes)), v) := by
  unfold bytesOf at hread
  refine Eq.trans (Process.alone_bind_of_ok (show _ = (Except.ok file.symlink, v) from ?_)) ?_
  · rw [Process.alone_read, hfile]
    rfl
  cases hlink : file.symlink with
  | true =>
      rw [hlink, if_pos rfl] at hread
      refine Process.alone_bind_of_ok (a := bytes) ?_
      rw [readLink, Process.alone_read, hfile, ← hread]
      simp [hlink, bind, Except.bind]
  | false =>
      rw [hlink, if_neg Bool.false_ne_true] at hread
      cases hclosed : file.closed with
      | some e =>
          rw [hclosed] at hread
          cases hread
      | none =>
          rw [hclosed] at hread
          have hopen : (openFile path).alone v = (.ok (some ⟨file, v.changed path⟩), v) := by
            rw [openFile, Process.alone_read, hfile]
            simp [hlink, hclosed, bind, Except.bind, pure, Except.pure]
          refine Eq.trans (Process.alone_bind_of_ok hopen) ?_
          dsimp only
          rw [if_pos rfl]
          refine Process.alone_bind_of_ok (a := bytes) ?_
          rw [readOpened, Process.alone_read, if_pos rfl]
          exact Prod.ext hread rfl

theorem readStable_alone {v : Volume Id} {path : Str} {file : File} {entry : FileEntry Id} (attempts : ℕ)
    (hfile : v.lookup path = .ok (.file file)) (hread : host.reading file = some entry) :
    (host.readStable path (attempts + 1)).alone v = (.ok (.stable file.stat entry), v) := by
  have hlstat : (lstat path).alone v = (.ok (some file.stat), v) := by
    rw [lstat, Process.alone_read, hfile]
    rfl
  unfold reading at hread
  split at hread
  · cases hread
  · rename_i bytes hbytes
    have hattempt : (host.attempt path).alone v = (.ok (some (file.stat, file.symlink, bytes)), v) := by
      refine Eq.trans (Process.alone_bind_of_ok hlstat) ?_
      refine Eq.trans (Process.alone_bind_of_ok (readEntry_alone hfile hbytes)) ?_
      refine Eq.trans (Process.alone_bind_of_ok (Process.alone_caught _ _)) ?_
      rw [hlstat]
      simp
    split at hread
    · rename_i content hstore
      obtain rfl := Option.some.inj hread
      refine Eq.trans (Process.alone_bind_of_ok (Process.alone_caught _ _)) ?_
      rw [hattempt]
      dsimp only
      rw [hstore]
      rfl
    · cases hread

/-- What a scan shows: the entries and the paths it is uncertain about. -/
def Scan.sight (scan : Scan Id) : SortedMap RepoPath (FileEntry Id) × List RepoPath :=
  (scan.entries, scan.uncertain)

/-- What one read adds to it. -/
def Hashed.shown (prior : Manifest Id) (found : Found) (hashed : Hashed Id)
    (sight : SortedMap RepoPath (FileEntry Id) × List RepoPath) :
    SortedMap RepoPath (FileEntry Id) × List RepoPath :=
  match hashed with
  | .stable _ entry => (sight.1.insert found.path entry, sight.2)
  | .gone => sight
  | .unstable =>
      (match prior.entries.get? found.path with
        | some entry => sight.1.insert found.path entry
        | none => sight.1, sight.2 ++ [found.path])

/-- At rest, an entry is shown as reading it shows it, wherever it comes from. -/
theorem captureFound_alone {v : Volume Id} (prior : Manifest Id) (racy : ℤ) {progress : Progress Id}
    {found : Found} (hold : host.Claims v progress.old) {file : File}
    (hfile : v.lookup found.relative = .ok (.file file)) (hstat : file.stat = found.stat) :
    let after := (host.captureFound prior racy progress found).alone v
    after.2 = v ∧ (∀ progress', after.1 = .ok progress' → host.Claims v progress'.old) ∧
      after.1.map (fun progress' => progress'.scan.sight) =
        ((host.readStable found.relative ATTEMPTS).alone v).1.map
          (fun hashed => hashed.shown prior found progress.scan.sight) := by
  intro after
  have hafter : after = (host.captureFound prior racy progress found).alone v := rfl
  unfold captureFound at hafter
  split at hafter
  · rename_i cached hreused
    have hread := readStable_alone (ATTEMPTS - 1) hfile (hold.reading_of_reused hreused hfile hstat)
    rw [hafter]
    refine ⟨rfl, fun progress' h => ?_, ?_⟩
    · cases h
      exact hold.erase _
    · rw [show ATTEMPTS = ATTEMPTS - 1 + 1 from rfl, hread]
      rfl
  · have hstate : ((host.readStable found.relative ATTEMPTS).alone v).2 = v :=
      (keeps_readStable mild_rest (Later.refl v)).alone.1
    rw [hafter, Process.alone_bind]
    generalize (host.readStable found.relative ATTEMPTS).alone v = answer at hstate
    obtain ⟨result, v'⟩ := answer
    obtain rfl : v' = v := hstate
    cases result with
    | error e => exact ⟨rfl, fun _ h => absurd h (by simp), rfl⟩
    | ok hashed =>
        cases hashed with
        | stable read entry =>
            refine ⟨rfl, fun progress' h => ?_, rfl⟩
            cases h
            exact hold.erase _
        | gone =>
            refine ⟨rfl, fun progress' h => ?_, rfl⟩
            cases h
            exact hold.erase _
        | unstable =>
            refine ⟨rfl, fun progress' h => ?_, rfl⟩
            cases h
            exact hold.erase _

/-- At rest, two scans whose claims hold show the same. -/
theorem captureAll_sight {v : Volume Id} (prior : Manifest Id) (racy : ℤ) (progress progress' : Progress Id)
    {founds : List Found} (hold : host.Claims v progress.old) (hold' : host.Claims v progress'.old)
    (hsight : progress.scan.sight = progress'.scan.sight)
    (hseen : ∀ found ∈ founds, ∃ file, v.lookup found.relative = .ok (.file file) ∧ file.stat = found.stat) :
    ((host.captureAll prior racy progress founds).alone v).1.map (fun p => p.scan.sight) =
      ((host.captureAll prior racy progress' founds).alone v).1.map (fun p => p.scan.sight) := by
  induction founds generalizing progress progress' with
  | nil => exact congrArg Except.ok hsight
  | cons found founds ih =>
      rw [List.forall_mem_cons] at hseen
      obtain ⟨⟨file, hfile, hstat⟩, hseen⟩ := hseen
      obtain ⟨hs, hclaims, hshown⟩ := captureFound_alone prior racy hold hfile hstat
      obtain ⟨hs', hclaims', hshown'⟩ := captureFound_alone prior racy hold' hfile hstat
      rw [hsight, ← hshown'] at hshown
      unfold captureAll
      rw [Process.alone_bind, Process.alone_bind]
      generalize (host.captureFound prior racy progress found).alone v = answer at hs hclaims hshown
      generalize (host.captureFound prior racy progress' found).alone v = answer' at hs' hclaims' hshown
      obtain ⟨result, v₁⟩ := answer
      obtain ⟨result', v₂⟩ := answer'
      obtain rfl : v = v₁ := hs.symm
      obtain rfl : v = v₂ := hs'.symm
      cases result with
      | error e =>
          cases result' with
          | error e' => exact congrArg Except.error (Except.error.inj hshown)
          | ok p' => cases hshown
      | ok p =>
          cases result' with
          | error e' => cases hshown
          | ok p' => exact ih p p' (hclaims p rfl) (hclaims' p' rfl) (Except.ok.inj hshown) hseen

/-- At rest, a file that the walk found has the fingerprint it found. -/
theorem walk_alone (v : Volume Id) (source : Source) (rules : IgnoreRules) (prior : Manifest Id) :
    ((walk source rules prior).alone v).2 = v ∧ ∀ founds, ((walk source rules prior).alone v).1 = .ok founds →
      ∀ found ∈ founds, ∃ file, v.lookup found.relative = .ok (.file file) ∧ file.stat = found.stat := by
  have hs : Lasting Eq Eq (fun (v : Volume Id) listed => ∀ found, listed = .found found →
      ∃ file, v.lookup found.relative = .ok (.file file) ∧ file.stat = found.stat) := by
    refine ⟨fun _ => rfl, fun h _ => h ▸ id, fun h _ => h ▸ id, fun _ _ h => (by cases h), fun hfile found h => ?_⟩
    cases h
    exact ⟨_, hfile, rfl⟩
  obtain ⟨hstate, hfounds⟩ := (keeps_walk hs (fun _ _ _ _ _ _ h => by cases h)).alone
  exact ⟨hstate, fun founds h found hm => hfounds founds h found hm found rfl⟩

/-- At rest, two caches whose claims hold give the same sight. -/
theorem scanSource_sight {v : Volume Id} {source : Source} {prior : Manifest Id} {cache cache' : StatCache Id}
    (hc : host.Claims v cache.entries) (hc' : host.Claims v cache'.entries) :
    ((host.scanSource source prior cache).alone v).1.map (fun answer => answer.1.sight) =
      ((host.scanSource source prior cache').alone v).1.map (fun answer => answer.1.sight) := by
  have hrules : (host.ignoreRules.alone v).2 = v :=
    (keeps_ignoreRules fun _ => rfl).alone.1
  refine Process.alone_bind_congr (fun _ v₁ hroot => ?_)
  obtain rfl : v = v₁ := congrArg Prod.snd hroot
  refine Process.alone_bind_congr (fun rules v₁ hr => ?_)
  obtain rfl : v = v₁ := by rw [← hrules, hr]
  refine Process.alone_bind_congr (fun racy v₁ hclock => ?_)
  obtain rfl : v = v₁ := congrArg Prod.snd hclock
  obtain ⟨hstate, hseen⟩ := walk_alone v source rules prior
  refine Process.alone_bind_congr (fun founds v₁ hwalk => ?_)
  obtain rfl : v = v₁ := by rw [← hstate, hwalk]
  rw [hwalk] at hseen
  have hsight := captureAll_sight prior racy ⟨cache.entries, .empty, cache.dirty, ⟨.empty, 0, []⟩⟩
    ⟨cache'.entries, .empty, cache'.dirty, ⟨.empty, 0, []⟩⟩ hc hc' rfl (hseen founds rfl)
  rw [Process.alone_bind, Process.alone_bind]
  generalize (host.captureAll prior racy ⟨cache.entries, .empty, cache.dirty, ⟨.empty, 0, []⟩⟩ founds).alone v =
    answer at hsight
  generalize (host.captureAll prior racy ⟨cache'.entries, .empty, cache'.dirty, ⟨.empty, 0, []⟩⟩ founds).alone v =
    answer' at hsight
  obtain ⟨result, v₁⟩ := answer
  obtain ⟨result', v₂⟩ := answer'
  cases result with
  | error e =>
      cases result' with
      | error e' => exact congrArg Except.error (Except.error.inj hsight)
      | ok p' => cases hsight
  | ok p =>
      cases result' with
      | error e' => cases hsight
      | ok p' =>
          have he : p.scan.sight = p'.scan.sight := Except.ok.inj hsight
          obtain ⟨hentries, huncertain⟩ := Prod.mk.inj he
          show Except.ok (p.scan.entries, _) = Except.ok (p'.scan.entries, _)
          rw [hentries, huncertain]

/-- Whatever changed and whatever was scanned and saved, a scan with the loaded cache returns what a scan of
the same directory with an empty cache returns. -/
theorem Run.scan_sight {v : Volume Id} {pool : Pool Unit (Volume Id) (ScanError Id) (Scan Id)}
    (h : host.Run ⟨v, []⟩ pool) (hv : v.cache = none) (source : Source) (prior : Manifest Id) :
    ((host.scanSource source prior (load pool.state)).alone pool.state).1.map (fun answer => answer.1.sight) =
      ((host.scanSource source prior ⟨.empty, true⟩).alone pool.state).1.map (fun answer => answer.1.sight) :=
  scanSource_sight (Claims.load (h.cacheHolds hv)) (claims_empty _)

/-- A directory with one old file. -/
def oneFile : Volume ℕ where
  clock := 2 * RACY_MARGIN_NS
  lookup := fun path =>
    if path = [] then .ok .directory
    else if path = [97] then .ok (.file ⟨⟨1, 0, 0, 7, 0⟩, false, none, .ok [98]⟩)
    else .error .notFound
  names := fun directory => if directory = [] then .ok [.name [97]] else .error .notFound
  changed := fun _ => 0
  cache := none

/-- Content is stored under its length. -/
def lengths : Surroundings ℕ := ⟨fun bytes => .ok bytes.length, fun _ => none, fun _ _ => .ok [], fun _ => true⟩

/-- `oneFile` after a scan. -/
def scanned : Volume ℕ := ((lengths.layerScan .layer .empty).alone oneFile).2

theorem run_scanned : ∃ processes, lengths.Run ⟨oneFile, []⟩ ⟨scanned, processes⟩ :=
  ⟨_, .head (.start ⟨.layer, .empty, rfl⟩) (Pool.run_alone _ (fun _ _ => trivial))⟩

/-- The scan saved a claim, and the next one sees the same with it and without. -/
theorem scan_sight_scanned : (load scanned).entries.keys = [[97]] ∧
    ((lengths.scanSource .layer .empty (load scanned)).alone scanned).1.map (fun answer => answer.1.sight) =
      ((lengths.scanSource .layer .empty ⟨.empty, true⟩).alone scanned).1.map (fun answer => answer.1.sight) := by
  refine ⟨by decide +kernel, ?_⟩
  obtain ⟨processes, h⟩ := run_scanned
  exact h.scan_sight rfl .layer .empty

end Surroundings

end Javelin
